import Filing.Access.Principal
import Mathlib.Data.List.TakeDrop
import Mathlib.Data.List.TakeWhile
import Mathlib.Data.String.Basic

/-!
# The texts of principals

The text of a user, a group or a role is its kind and its name with a colon between them.  No kind
holds a colon, so a text has one reading only, whatever its name holds: further colons, the word of
another kind, or the word of the public.

* `parse_colon_eq_ok_iff`: **a text is read as its first colon divides it.**
* `parse_eq_missingKind`: without a colon nothing is read but the public.
* `parse_texts`: **what is read is exactly the text of the public or of somebody with a name**, so
  reading and writing undo each other.
-/

namespace Filing.Principal

theorem span_colon {kind name : List Char} (h : ':' ∉ kind) :
    (kind ++ ':' :: name).span (· ≠ ':') = (kind, ':' :: name) := by
  have hk : ∀ x ∈ kind, decide (x ≠ ':') = true := fun x hx =>
    decide_eq_true fun hxc => h (hxc ▸ hx)
  rw [List.span_eq_takeWhile_dropWhile, List.takeWhile_append_of_pos hk,
    List.dropWhile_append_of_pos hk, List.takeWhile_cons_of_neg (by simp),
    List.dropWhile_cons_of_neg (by simp), List.append_nil]

theorem toList_colon (kind name : String) :
    (kind ++ ":" ++ name).toList = kind.toList ++ ':' :: name.toList := by
  simp

theorem colon_ne_anonymous (kind name : String) : kind ++ ":" ++ name ≠ "anonymous" := by
  intro heq
  have hm : ':' ∈ "anonymous".toList := by
    rw [← heq, toList_colon]
    simp
  revert hm
  decide

/-- **A text is read as its first colon divides it**: a kind stands before the colon, and a name
after it. -/
theorem parse_colon_eq_ok_iff {kind name : String} {p : Principal} (h : ':' ∉ kind.toList) :
    parse (kind ++ ":" ++ name) = .ok p ↔ name ≠ "" ∧
      (kind = "user" ∧ p = .user name ∨ kind = "group" ∧ p = .group name ∨
        kind = "role" ∧ p = .role name) := by
  rw [parse, if_neg (colon_ne_anonymous kind name), toList_colon, span_colon h]
  cases hl : name.toList with
  | nil => simp [String.toList_eq_nil_iff.mp hl]
  | cons c rest =>
    have hne : name ≠ "" := by
      rintro rfl
      cases hl
    dsimp only
    rw [← hl, String.ofList_toList, String.ofList_toList]
    split <;> simp_all [eq_comm]

theorem exists_eq_colon {s : String} (h : ':' ∈ s.toList) :
    ∃ kind name, ':' ∉ kind.toList ∧ s = kind ++ ":" ++ name := by
  obtain ⟨kind, name, hs, hkind⟩ := List.eq_append_cons_of_mem h
  refine ⟨.ofList kind, .ofList name, by rwa [String.toList_ofList], String.toList_injective ?_⟩
  rw [toList_colon, String.toList_ofList, String.toList_ofList, hs]

theorem parse_eq_missingKind {s : String} (hs : s ≠ "anonymous") (h : ':' ∉ s.toList) :
    parse s = .error (.missingKind s) := by
  have hdrop : s.toList.dropWhile (· ≠ ':') = [] :=
    List.dropWhile_eq_nil_iff.mpr fun c hc => decide_eq_true fun heq => h (heq ▸ hc)
  rw [parse, if_neg hs, List.span_eq_takeWhile_dropWhile, hdrop]

theorem parse_anonymous : parse "anonymous" = .ok .anonymous := if_pos rfl

theorem parse_text {p : Principal} (h : p = .anonymous ∨ p.name ≠ "") : parse p.text = .ok p := by
  have hname (hne : p ≠ .anonymous) : p.name ≠ "" := h.resolve_left hne
  cases p with
  | anonymous => exact parse_anonymous
  | user n =>
    show parse ("user" ++ ":" ++ n) = _
    exact (parse_colon_eq_ok_iff (by decide)).mpr ⟨hname nofun, .inl ⟨rfl, rfl⟩⟩
  | group n =>
    show parse ("group" ++ ":" ++ n) = _
    exact (parse_colon_eq_ok_iff (by decide)).mpr ⟨hname nofun, .inr (.inl ⟨rfl, rfl⟩)⟩
  | role n =>
    show parse ("role" ++ ":" ++ n) = _
    exact (parse_colon_eq_ok_iff (by decide)).mpr ⟨hname nofun, .inr (.inr ⟨rfl, rfl⟩)⟩

theorem eq_text_of_parse {s : String} {p : Principal} (h : parse s = .ok p) :
    s = p.text ∧ (p = .anonymous ∨ p.name ≠ "") := by
  by_cases hs : s = "anonymous"
  · rw [hs, parse_anonymous] at h
    cases h
    exact ⟨hs, .inl rfl⟩
  · by_cases hc : ':' ∈ s.toList
    · obtain ⟨kind, name, hkind, rfl⟩ := exists_eq_colon hc
      obtain ⟨hname, ⟨rfl, rfl⟩ | ⟨rfl, rfl⟩ | ⟨rfl, rfl⟩⟩ := (parse_colon_eq_ok_iff hkind).mp h
      all_goals exact ⟨rfl, .inr hname⟩
    · rw [parse_eq_missingKind hs hc] at h
      cases h

/-- **What is read is exactly the text of the public or of somebody with a name.**  So reading
undoes writing, writing undoes reading, and no two texts are read as the same principal. -/
theorem parse_texts :
    (∀ s p, parse s = .ok p ↔ s = p.text ∧ (p = .anonymous ∨ p.name ≠ "")) ∧
    (∀ p, p = .anonymous ∨ p.name ≠ "" → parse p.text = .ok p) ∧
    (∀ s p, parse s = .ok p → p.text = s) ∧
    ∀ s t p, parse s = .ok p → parse t = .ok p → s = t := by
  refine ⟨fun s p => ⟨eq_text_of_parse, ?_⟩, fun p => parse_text, fun s p h => ?_, ?_⟩
  · rintro ⟨rfl, hp⟩
    exact parse_text hp
  · exact (eq_text_of_parse h).1.symm
  · intro s t p hs ht
    exact (eq_text_of_parse hs).1.trans (eq_text_of_parse ht).1.symm

/-- A name may look like the text of another principal. -/
theorem parse_texts_disguised :
    parse "user:role:a=b" = .ok (.user "role:a=b") ∧
    parse "group:anonymous" = .ok (.group "anonymous") ∧
    (Principal.role ":").text = "role::" ∧ ¬∃ s, parse s = .ok (.user "") := by
  refine ⟨(parse_texts.1 _ _).mpr ⟨rfl, .inr (by decide)⟩,
    parse_texts.2.1 (.group "anonymous") (.inr (by decide)),
    parse_texts.2.2.1 _ _ (parse_texts.2.1 (.role ":") (.inr (by decide))), ?_⟩
  rintro ⟨s, hs⟩
  exact ((parse_texts.1 _ _).mp hs).2.elim nofun fun hne => hne rfl

end Filing.Principal
