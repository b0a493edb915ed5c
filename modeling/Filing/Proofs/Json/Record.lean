import Mathlib.Data.List.TakeWhile
import Filing.Json.Record
import Filing.Proofs.Json.Written

/-!
# Numbers, records and tagged values that were written

What the writers of numbers and records make is writable, and the readers of the parts give back
what was put in.

* `word?_write`: the plain digits of a word are read as this word.
* `record?_ofMembers`: an object with some of the fields of a record, each once, is read as a record
  of these fields.
* `tagged?_ofTag`, `tagged?_ofContent`: the two forms in which tagged values are written.
-/

namespace Filing

theorem mapM_map_eq_some {α β : Type} {f : β → Option α} {g : α → β} {l : List α}
    (h : ∀ a ∈ l, f (g a) = some a) : (l.map g).mapM f = some l := by
  induction l with
  | nil => rfl
  | cons a l ih =>
    rw [List.map_cons, List.mapM_cons, h a List.mem_cons_self,
      ih fun b hb => h b (List.mem_cons_of_mem _ hb)]
    rfl

namespace Json

/-! ## Numbers -/

theorem isWordChar_of_isDigit {c : Char} (h : Decimal.isDigit c = true) : isWordChar c = true := by
  have hd : c.isDigit = true := by
    simp only [Decimal.isDigit, Bool.and_eq_true, decide_eq_true_eq] at h
    simp only [Char.isDigit, Bool.and_eq_true, decide_eq_true_eq]
    exact h
  simp [isWordChar, Char.isAlphanum, hd]

theorem isNumber_digits {c : Char} {cs : List Char} (h : ∀ d ∈ c :: cs, Decimal.isDigit d = true)
    (hzero : c = '0' → cs = []) : isNumber (c :: cs) = true := by
  have hc := h c List.mem_cons_self
  have hdrop : cs.dropWhile Decimal.isDigit = [] :=
    List.dropWhile_eq_nil_iff.mpr fun d hd => h d (List.mem_cons_of_mem _ hd)
  have hint : integer? (c :: cs) = some [] := by
    by_cases hz : c = '0'
    · rw [hz, hzero hz]
      rfl
    · rw [integer?, digits?, if_pos hc, hdrop]
      exact fun _ he => hz (List.cons.inj he).1
  have hminus : c ≠ '-' := fun hm => by
    rw [hm] at hc
    cases hc
  unfold isNumber
  split
  · next he => exact absurd (List.cons.inj he).1 hminus
  · show (((integer? (c :: cs)).bind fraction?).bind exponent?).any (·.isEmpty) = true
    rw [hint]
    rfl

theorem zero_of_head?_write {n : Nat} {c : Char} {cs : List Char}
    (hw : Decimal.write n = c :: cs) (hc : c = '0') : n = 0 ∧ cs = [] := by
  have hn : n = 0 := by
    refine Decidable.byContradiction fun hn => Decimal.head?_write hn ?_
    rw [hw, hc]
    rfl
  rw [hn, Decimal.write] at hw
  exact ⟨hn, (List.cons.inj hw).2.symm⟩

theorem isWord_write (n : Nat) : IsWord (Decimal.write n) (.ofNat n) where
  ne_nil := Decimal.write_ne_nil n
  chars _ h := isWordChar_of_isDigit (Decimal.isDigit_of_mem_write h)
  scalar := by
    have hdigits := fun d (h : d ∈ Decimal.write n) => Decimal.isDigit_of_mem_write h
    rw [ofNat]
    obtain ⟨c, cs, hw⟩ := List.exists_cons_of_ne_nil (Decimal.write_ne_nil n)
    rw [hw] at hdigits ⊢
    -- a word that begins with a digit is no name
    have hname : ∀ d l, Decimal.isDigit d = false → c :: cs ≠ d :: l := fun d l hd he => by
      rw [← (List.cons.inj he).1, hdigits c List.mem_cons_self] at hd
      cases hd
    rw [scalar?, if_neg (hname _ _ (by decide)), if_neg (hname _ _ (by decide)),
      if_neg (hname _ _ (by decide)),
      if_pos (isNumber_digits hdigits fun hc => (zero_of_head?_write hw hc).2)]

theorem plainNat?_write (n : Nat) : plainNat? (Decimal.write n) = some n := by
  have hall : (Decimal.write n).all Decimal.isDigit = true :=
    List.all_eq_true.mpr fun d hd => Decimal.isDigit_of_mem_write hd
  have hhead : ¬((Decimal.write n).head? = some '0' ∧ (Decimal.write n).length ≠ 1) := by
    rintro ⟨hz, hlen⟩
    obtain ⟨c, cs, hw⟩ := List.exists_cons_of_ne_nil (Decimal.write_ne_nil n)
    rw [hw] at hz hlen
    rw [(zero_of_head?_write hw (Option.some.inj hz)).2] at hlen
    exact hlen rfl
  rw [plainNat?, if_neg, Decimal.read_write]
  simpa [hall, Decimal.write_ne_nil] using hhead

theorem word?_write (w : UInt64) : word? (Decimal.write w.toNat) = some w := by
  rw [word?, plainNat?_write, Option.bind_some, if_pos w.toNat_lt]
  exact congrArg some (UInt64.ofNat_toNat ..)

/-! ## What is writable -/

theorem steady_write (n : Nat) : Steady (Decimal.write n) := by
  suffices h : ∀ cs : List Char, (∀ c ∈ cs, Decimal.isDigit c = true) → Steady cs from
    h _ fun c => Decimal.isDigit_of_mem_write
  intro cs hcs
  induction cs with
  | nil => exact steady_nil
  | cons c cs ih =>
    have hc := hcs c List.mem_cons_self
    have hsingle : Steady [c] := by
      refine steady_singleton (fun h => ?_) (fun h => ?_) ?_
      · rw [h] at hc
        cases hc
      · rw [h] at hc
        cases hc
      · simp only [Decimal.isDigit, Bool.and_eq_true, decide_eq_true_eq] at hc
        simp only [Quoted.isControl, decide_eq_false_iff_not]
        omega
    exact hsingle.append (ih fun d hd => hcs d (List.mem_cons_of_mem _ hd))

theorem writable_ofNat (n : Nat) : Writable (.ofNat n) := .number (isWord_write n)

theorem writable_ofString (s : String) : Writable (.ofString s) := .string (steady_ofString s)

theorem writable_ofMembers {ms : List (String × Json)} (h : ∀ m ∈ ms, Writable m.2) :
    Writable (.ofMembers ms) := by
  refine .object ?_ ?_
  · intro m hm
    obtain ⟨m, _, rfl⟩ := List.mem_map.mp hm
    exact steady_ofString m.1
  · intro m hm
    obtain ⟨m, hmem, rfl⟩ := List.mem_map.mp hm
    exact h m hmem

theorem writable_map {α : Type} {f : α → Json} (h : ∀ a, Writable (f a)) (l : List α) :
    Writable (.array (l.map f)) := by
  refine .array fun v hv => ?_
  obtain ⟨a, _, rfl⟩ := List.mem_map.mp hv
  exact h a

/-! ## Records -/

@[simp] theorem text?_ofString (s : String) : (Json.ofString s).text? = some s :=
  Quoted.text?_ofString s

theorem members?_ofMembers (ms : List (String × Json)) :
    members? (ms.map fun m => (.ofString m.1, m.2)) = some ms :=
  mapM_map_eq_some fun m _ => by rw [Quoted.text?_ofString, Option.map_some]

theorem record?_ofMembers {fields : List String} {ms : List (String × Json)}
    (hf : ∀ m ∈ ms, m.1 ∈ fields) (hn : (ms.map (·.1)).Nodup) :
    (Json.ofMembers ms).record? fields = some ⟨ms, true⟩ := by
  have hknown : (ms.filter fun m => m.1 ∈ fields) = ms :=
    List.filter_eq_self.mpr fun m hm => by simpa using hf m hm
  rw [ofMembers, record?, members?_ofMembers]
  simp only [Option.bind_eq_bind, Option.bind_some, hknown]
  rw [if_pos hn]

variable {tag content : String}

theorem tagged?_ofTag (h : tag ≠ content) (s : String) :
    (Json.ofMembers [(tag, .ofString s)]).tagged? tag content = some ⟨s, none, false⟩ := by
  have hr : (Json.ofMembers [(tag, .ofString s)]).record? [tag, content] =
      some ⟨[(tag, .ofString s)], true⟩ := record?_ofMembers (by simp) (by simp)
  rw [tagged?, hr]
  simp [Record.required, Record.find?, List.lookup_cons, word, ofString, Quoted.text?_ofString, h,
    beq_eq_false_iff_ne.mpr h.symm]

theorem tagged?_ofContent (h : tag ≠ content) (s : String) (v : Json) :
    (Json.ofMembers [(tag, .ofString s), (content, v)]).tagged? tag content =
      some ⟨s, some v, false⟩ := by
  have hr : (Json.ofMembers [(tag, .ofString s), (content, v)]).record? [tag, content] =
      some ⟨[(tag, .ofString s), (content, v)], true⟩ :=
    record?_ofMembers (by simp) (by simpa using h)
  rw [tagged?, hr]
  simp [Record.required, Record.find?, List.lookup_cons, word, ofString, Quoted.text?_ofString, h,
    beq_eq_false_iff_ne.mpr h.symm]

end Json

end Filing
