import Filing.Json.Reader
import Filing.Json.Writer

/-!
# What is written is read back

The reader undoes the writer for every value whose numbers are words that read as numbers and whose
strings end where they close (`Writable`).

* `Quoted.text?_ofString`: the written form of a string means this string, and it does not close
  early (`Quoted.steady_ofString`).
* `Writable.reads`: the reader is followed through the written form of a value, from any point at
  which a value may begin.
* `parse?_compress`: **the compact form of a writable value is read as this value**.
-/

namespace Filing

/-! ## Quoted texts -/

namespace Quoted

/-- What may stand for a character: itself, a letter after a backslash that means it, or its number
in four digits. -/
inductive StandsFor (c : Char) : List Char → Prop
  | plain : c ≠ '"' → c ≠ '\\' → isControl c = false → StandsFor c [c]
  | short {l : Char} : l ≠ 'u' → unescapeShort? l = some c → StandsFor c ['\\', l]
  | number {w x y z : Char} : Hex.write 4 c.toNat = [w, x, y, z] → isControl c = true →
      StandsFor c ['\\', 'u', w, x, y, z]

theorem standsFor_escapeChar (c : Char) : StandsFor c (escapeChar c) := by
  unfold escapeChar
  split
  · exact .short (by decide) (by decide)
  · exact .short (by decide) (by decide)
  · exact .short (by decide) (by decide)
  · exact .short (by decide) (by decide)
  · exact .short (by decide) (by decide)
  · exact .short (by decide) (by decide)
  · exact .short (by decide) (by decide)
  · next hq hb _ _ _ _ _ =>
    split
    · next hc => exact .number rfl hc
    · next hc => exact .plain hq hb (by simpa using hc)

/-- The number of a control character is read as this character, since it is no half of a pair. -/
theorem unescape_number {c w x y z : Char} (hw : Hex.write 4 c.toNat = [w, x, y, z])
    (hc : isControl c = true) (rest : List Char) :
    unescape ('\\' :: 'u' :: w :: x :: y :: z :: rest) = (unescape rest).map (c :: ·) := by
  have hlt : c.toNat < 0x20 := by simpa [isControl] using hc
  have hu : unit? w x y z = some c.toNat := by
    rw [unit?, ← hw, Hex.read_write]
    exact congrArg some (Nat.mod_eq_of_lt (Nat.lt_trans hlt (by decide)))
  have hh : isHighSurrogate c.toNat = false := by
    simp only [isHighSurrogate, Bool.and_eq_false_iff, decide_eq_false_iff_not]
    omega
  have hl : isLowSurrogate c.toNat = false := by
    simp only [isLowSurrogate, Bool.and_eq_false_iff, decide_eq_false_iff_not]
    omega
  rw [unescape, hu]
  simp only [hh, hl, Bool.false_eq_true, if_false, Char.ofNat_toNat]

theorem StandsFor.unescape {c : Char} {l : List Char} (h : StandsFor c l) (rest : List Char) :
    unescape (l ++ rest) = (Quoted.unescape rest).map (c :: ·) := by
  cases h with
  | plain hq hb _ =>
    exact unescape.eq_5 c rest (fun _ _ _ _ _ h => absurd h hb) (fun _ _ h => absurd h hb)
      fun h => absurd h hb
  | @short l hu hl =>
    show Quoted.unescape ('\\' :: l :: rest) = _
    rw [unescape.eq_3 l rest (fun _ _ _ _ _ h => absurd h hu), hl]
  | number hw hc => exact unescape_number hw hc rest

theorem unescape_escape (cs : List Char) : unescape (escape cs) = some cs := by
  induction cs with
  | nil => rfl
  | cons c cs ih =>
    rw [escape, List.flatMap_cons, (standsFor_escapeChar c).unescape, ← escape, ih]
    rfl

theorem text?_ofString (s : String) : (ofString s).text? = some s := by
  rw [text?, ofString, unescape_escape, Option.map_some, String.ofList_toList]

end Quoted

namespace Json

/-! ## The reader on parts of a text -/

variable {c : Char} {mode mode' : Mode} {rest : List Char} {t : Token} {v : Json}

theorem tokensFrom_cons (mode : Mode) (c : Char) (rest : List Char) :
    tokensFrom mode (c :: rest) =
      (scan c mode).bind fun s => (tokensFrom s.1 rest).map (s.2 ++ ·) := by
  rcases hs : scan c mode with _ | ⟨mode', _ | ⟨t, l⟩⟩ <;> cases mode <;> simp [tokensFrom, hs]

theorem tokensFrom_silent (h : scan c mode = some (mode', [])) :
    tokensFrom mode (c :: rest) = tokensFrom mode' rest := by
  rw [tokensFrom_cons, h]
  simp

/-- Neither the text ends here nor does a word go on. -/
def Ends (rest : List Char) : Prop := ∀ c ∈ rest.head?, isWordChar c = false

theorem ends_nil : Ends [] := nofun

theorem ends_cons (h : isWordChar c = false) : Ends (c :: rest) := by
  intro d hd
  cases hd
  exact h

theorem tokensFrom_word {read : List Char} (h : scalar? read.reverse = some v) (hr : Ends rest) :
    tokensFrom (.word read) rest = (tokensFrom .gap rest).map (.scalar v :: ·) := by
  cases rest with
  | nil => simp [tokensFrom, h]
  | cons c rest =>
    have hs : scan c (.word read) = (fromGap c).map fun s => (s.1, .scalar v :: s.2) := by
      rw [scan, if_neg (by simp [hr c rfl]), h]
      cases fromGap c <;> rfl
    rw [tokensFrom_cons, tokensFrom_cons, hs, scan, Option.bind_map, Option.map_bind]
    congr 1
    funext s
    rw [Function.comp_apply, Function.comp_apply, Option.map_map]
    rfl

/-- What the machine comes to from a state when it reads on. -/
def readOn (mode : Mode) (cs : List Char) (s : Phase × List Frame) : Option (Phase × List Frame) :=
  (tokensFrom mode cs).bind (·.foldlM step s)

variable {s s' : Phase × List Frame}

theorem readOn_token {cs : List Char}
    (h : tokensFrom mode cs = (tokensFrom mode' rest).map (t :: ·)) (hs : step s t = some s') :
    readOn mode cs s = readOn mode' rest s' := by
  rw [readOn, h, readOn, Option.bind_map]
  congr 1
  funext l
  simp [List.foldlM_cons, hs]

/-! ## Quoted texts in the scanner -/

/-- In a quoted text the scanner gets through these characters without coming to its end. -/
def Steady (cs : List Char) : Prop :=
  ∀ read rest,
    tokensFrom (.quoted read) (cs ++ rest) = tokensFrom (.quoted (cs.reverse ++ read)) rest

theorem steady_nil : Steady [] := fun _ _ => rfl

theorem Steady.append {a b : List Char} (ha : Steady a) (hb : Steady b) : Steady (a ++ b) := by
  intro read rest
  rw [List.append_assoc, ha, hb, List.reverse_append, List.append_assoc]

theorem steady_singleton (hq : c ≠ '"') (hb : c ≠ '\\') (hc : Quoted.isControl c = false) :
    Steady [c] := fun read _ =>
  tokensFrom_silent (show scan c (.quoted read) = _ by simp [scan, hq, hb, hc])

theorem steady_of_standsFor {l : List Char} (h : Quoted.StandsFor c l) : Steady l := by
  have hbackslash : ∀ read rest,
      tokensFrom (.quoted read) ('\\' :: rest) = tokensFrom (.escape ('\\' :: read)) rest :=
    fun _ _ => tokensFrom_silent rfl
  cases h with
  | plain hq hb hc => exact steady_singleton hq hb hc
  | @short l hu hl =>
    intro read rest
    refine (hbackslash read (l :: rest)).trans (tokensFrom_silent ?_)
    simp [scan, hu, hl]
  | @number w x y z hw _ =>
    intro read rest
    have hdigit : ∀ d ∈ [w, x, y, z], (Hex.value? d).isSome = true := fun d hd =>
      Hex.isSome_value?_of_mem_write (hw ▸ hd)
    have hstep : ∀ d ∈ [w, x, y, z], ∀ missing read rest,
        tokensFrom (.digits missing read) (d :: rest) = tokensFrom
          (if missing ≤ 1 then .quoted (d :: read) else .digits (missing - 1) (d :: read)) rest := by
      intro d hd missing read rest
      refine tokensFrom_silent ?_
      rw [scan, if_pos (hdigit d hd)]
    have hmark : tokensFrom (.escape ('\\' :: read)) ('u' :: w :: x :: y :: z :: rest) =
        tokensFrom (.digits 4 ('u' :: '\\' :: read)) (w :: x :: y :: z :: rest) :=
      tokensFrom_silent rfl
    refine (hbackslash read _).trans (hmark.trans ?_)
    rw [hstep w (by simp), if_neg (by decide), hstep x (by simp), if_neg (by decide),
      hstep y (by simp), if_neg (by decide), hstep z (by simp), if_pos (by decide)]
    rfl

theorem steady_ofString (s : String) : Steady (Quoted.ofString s).source := by
  show Steady (Quoted.escape s.toList)
  induction s.toList with
  | nil => exact steady_nil
  | cons c cs ih => exact (steady_of_standsFor (Quoted.standsFor_escapeChar c)).append ih

theorem readOn_quoted {q : Quoted} (h : Steady q.source) (hs : step s (.text q) = some s') :
    readOn .gap (q.render ++ rest) s = readOn .gap rest s' := by
  have hscan : tokensFrom .gap (q.render ++ rest) = (tokensFrom .gap rest).map (.text q :: ·) := by
    have hopen : tokensFrom .gap (q.render ++ rest) =
        tokensFrom (.quoted []) (q.source ++ '"' :: rest) := by
      rw [Quoted.render, List.cons_append, List.cons_append, List.append_assoc]
      exact tokensFrom_silent rfl
    rw [hopen, h, tokensFrom_cons]
    simp [scan]
  exact readOn_token hscan hs

/-! ## Words -/

/-- A word that stands for a value. -/
structure IsWord (word : List Char) (v : Json) : Prop where
  ne_nil : word ≠ []
  chars : ∀ c ∈ word, isWordChar c = true
  scalar : scalar? word = some v

theorem fromGap_wordChar (h : isWordChar c = true) : fromGap c = some (.word [c], []) := by
  have hs : isSpace c = false := by
    refine Bool.eq_false_iff.mpr fun hs => ?_
    have : c = ' ' ∨ c = '\n' ∨ c = '\r' ∨ c = '\t' := by simpa [isSpace, or_assoc] using hs
    rcases this with rfl | rfl | rfl | rfl <;> cases h
  have hq : c ≠ '"' := fun hq => by
    subst hq
    cases h
  simp [fromGap, hs, hq, h]

theorem readOn_word {word : List Char} (h : IsWord word v) (hr : Ends rest)
    (hs : step s (.scalar v) = some s') :
    readOn .gap (word ++ rest) s = readOn .gap rest s' := by
  have hgo : ∀ (cs read : List Char), (∀ c ∈ cs, isWordChar c = true) →
      tokensFrom (.word read) (cs ++ rest) = tokensFrom (.word (cs.reverse ++ read)) rest := by
    intro cs
    induction cs with
    | nil => exact fun _ _ => rfl
    | cons c cs ih =>
      intro read hc
      have hscan : scan c (.word read) = some (.word (c :: read), []) := by
        rw [scan, if_pos (hc c List.mem_cons_self)]
      rw [List.cons_append, tokensFrom_silent hscan,
        ih _ fun d hd => hc d (List.mem_cons_of_mem _ hd), List.reverse_cons, List.append_assoc]
      rfl
  obtain ⟨c, cs, rfl⟩ := List.exists_cons_of_ne_nil h.ne_nil
  have hscan : tokensFrom .gap (c :: cs ++ rest) =
      (tokensFrom .gap rest).map (.scalar v :: ·) := by
    have hfirst : scan c .gap = some (.word [c], []) :=
      fromGap_wordChar (h.chars c List.mem_cons_self)
    rw [List.cons_append, tokensFrom_silent hfirst,
      hgo cs [c] fun d hd => h.chars d (List.mem_cons_of_mem _ hd)]
    exact tokensFrom_word (by simpa using h.scalar) hr
  exact readOn_token hscan hs

/-! ## Values -/

/-- A value whose numbers are words that read as numbers, and whose strings end where they close. -/
inductive Writable : Json → Prop
  | null : Writable .null
  | bool (b : Bool) : Writable (.bool b)
  | number {literal : List Char} : IsWord literal (.number literal) → Writable (.number literal)
  | string {q : Quoted} : Steady q.source → Writable (.string q)
  | array {l : List Json} : (∀ v ∈ l, Writable v) → Writable (.array l)
  | object {ms : List (Quoted × Json)} : (∀ m ∈ ms, Steady m.1.source) →
      (∀ m ∈ ms, Writable m.2) → Writable (.object ms)

/-- A value may begin here. -/
def Opening (ph : Phase) : Prop := ph = .value ∨ ph = .firstValue

theorem step_opening {ph : Phase} {stack : List Frame} (h : Opening ph) (ht : t ≠ .endArray) :
    step (ph, stack) t = begin t stack := by
  rcases h with rfl | rfl
  · rfl
  · cases t with
    | endArray => exact absurd rfl ht
    | _ => rcases stack with _ | ⟨⟨⟨_ | _⟩⟩ | _, _⟩ <;> rfl

/-- Wherever it may begin, the written form of the value is read as this value. -/
def Reads (v : Json) : Prop :=
  ∀ ⦃ph : Phase⦄ ⦃stack : List Frame⦄ ⦃rest : List Char⦄, Opening ph → Ends rest →
    readOn .gap (v.render ++ rest) (ph, stack) = readOn .gap rest (.after v, stack)

theorem readOn_mark (hm : fromGap c = some (.gap, [t])) (hs : step s t = some s') :
    readOn .gap (c :: rest) s = readOn .gap rest s' := by
  refine readOn_token ?_ hs
  rw [tokensFrom_cons, scan, hm]
  rfl

theorem reads_word (h : IsWord v.render v) : Reads v := fun _ _ _ hph hr =>
  readOn_word h hr (step_opening hph nofun)

section Lists

variable {stack : List Frame}

theorem readOn_elements {l : List Json} (hl : l ≠ []) (hv : ∀ v ∈ l, Reads v) {ph : Phase}
    (hph : Opening ph) (done : List Json) :
    readOn .gap (renderElements l ++ ']' :: rest) (ph, .elements done :: stack) =
      readOn .gap rest (.after (.array (done.reverse ++ l)), stack) := by
  induction l generalizing ph done with
  | nil => exact absurd rfl hl
  | cons v l ih =>
    have hread := hv v List.mem_cons_self
    cases l with
    | nil =>
      rw [renderElements, hread hph (ends_cons rfl)]
      refine (readOn_mark rfl rfl).trans ?_
      rw [List.reverse_cons]
    | cons w l =>
      have hrender : renderElements (v :: w :: l) = v.render ++ ',' :: renderElements (w :: l) := by
        simp [renderElements]
      rw [hrender, List.append_assoc, List.cons_append, hread hph (ends_cons rfl)]
      refine (readOn_mark rfl rfl).trans ?_
      rw [ih (by simp) (fun w hw => hv w (List.mem_cons_of_mem _ hw)) (.inl rfl) (v :: done),
        List.reverse_cons, List.append_assoc]
      rfl

/-- A key may stand here, after these members. -/
def KeyDue (ph : Phase) (done : List (Quoted × Json)) : Prop :=
  ph = .key done ∨ ph = .firstKey ∧ done = []

theorem readOn_members {ms : List (Quoted × Json)} (hms : ms ≠ [])
    (hk : ∀ m ∈ ms, Steady m.1.source) (hv : ∀ m ∈ ms, Reads m.2) {ph : Phase}
    {done : List (Quoted × Json)} (hph : KeyDue ph done) :
    readOn .gap (renderMembers ms ++ '\x7d' :: rest) (ph, stack) =
      readOn .gap rest (.after (.object (done.reverse ++ ms)), stack) := by
  induction ms generalizing ph done with
  | nil => exact absurd rfl hms
  | cons m ms ih =>
    obtain ⟨k, v⟩ := m
    have hkey : ∀ rest, readOn .gap (k.render ++ ':' :: rest) (ph, stack) =
        readOn .gap rest (.value, .member done k :: stack) := fun rest => by
      have hstep : step (ph, stack) (.text k) = some (.colon done k, stack) := by
        rcases hph with rfl | ⟨rfl, rfl⟩ <;> rfl
      rw [readOn_quoted (hk _ List.mem_cons_self) hstep]
      exact readOn_mark rfl rfl
    have hread := hv _ List.mem_cons_self
    cases ms with
    | nil =>
      rw [renderMembers, List.append_assoc, List.cons_append, hkey,
        hread (.inl rfl) (ends_cons rfl)]
      refine (readOn_mark rfl rfl).trans ?_
      rw [List.reverse_cons]
    | cons m ms =>
      have hrender : renderMembers ((k, v) :: m :: ms) =
          k.render ++ ':' :: (v.render ++ ',' :: renderMembers (m :: ms)) := by
        simp [renderMembers]
      rw [hrender, List.append_assoc, List.cons_append, hkey, List.append_assoc, List.cons_append,
        hread (.inl rfl) (ends_cons rfl)]
      refine (readOn_mark rfl rfl).trans ?_
      rw [ih (by simp) (fun m hm => hk m (List.mem_cons_of_mem _ hm))
        (fun m hm => hv m (List.mem_cons_of_mem _ hm)) (.inl rfl), List.reverse_cons,
        List.append_assoc]
      rfl

end Lists

/-- **The reader gets through the written form of a writable value.** -/
theorem Writable.reads (h : Writable v) : Reads v := by
  induction h with
  | null => exact reads_word ⟨nofun, List.all_eq_true.mp rfl, rfl⟩
  | bool b => cases b <;> exact reads_word ⟨nofun, List.all_eq_true.mp rfl, rfl⟩
  | number h => exact reads_word h
  | string h => exact fun _ _ _ hph _ => readOn_quoted h (step_opening hph nofun)
  | @array l _ ih =>
    intro ph stack rest hph _
    rw [render, List.append_assoc]
    refine (readOn_mark (t := .beginArray) rfl (step_opening hph nofun)).trans ?_
    cases l with
    | nil => exact readOn_mark rfl rfl
    | cons v l => exact readOn_elements (by simp) ih (.inr rfl) []
  | @object ms hk _ ih =>
    intro ph stack rest hph _
    rw [render, List.append_assoc]
    refine (readOn_mark (t := .beginObject) rfl (step_opening hph nofun)).trans ?_
    cases ms with
    | nil => exact readOn_mark rfl rfl
    | cons m ms => exact readOn_members (by simp) hk ih (.inr ⟨rfl, rfl⟩)

/-- **The compact form of a writable value is read as this value.** -/
theorem parse?_compress (h : Writable v) : parse? v.compress = some v := by
  have hread : readOn .gap v.render (.value, []) = some (.after v, []) := by
    rw [← List.append_nil v.render]
    exact h.reads (.inl rfl) ends_nil
  rw [parse?, compress, String.toList_ofList, read, tokens?]
  rw [readOn] at hread
  obtain ⟨tokens, ht, hf⟩ := Option.bind_eq_some_iff.mp hread
  rw [ht, Option.bind_some, build?, hf]

end Json

end Filing
