import Filing.Cabinet.Basic

/-!
# The result of an edit

An edit takes a cabinet to an answer or a failure, and to the cabinet that it leaves (`Edit.on`).
One lemma for each way of making edits tells both, so that an edit is never unfolded.
-/

namespace Filing

variable {α β : Type}

theorem bind_eq_ok_iff {ε : Type} {x : Except ε α} {f : α → Except ε β} {b : β} :
    x >>= f = .ok b ↔ ∃ a, x = .ok a ∧ f a = .ok b := by
  cases x with
  | error d =>
    constructor
    · nofun
    · rintro ⟨a, h, _⟩
      cases h
  | ok a =>
    constructor
    · intro h
      exact ⟨a, rfl, h⟩
    · rintro ⟨a', h, hb⟩
      cases h
      exact hb

theorem forM_eq_ok_iff {ε : Type} {f : α → Except ε Unit} {l : List α} :
    l.forM f = .ok () ↔ ∀ a ∈ l, f a = .ok () := by
  induction l with
  | nil => simp [List.forM, pure, Except.pure]
  | cons a l ih =>
    show (f a >>= fun _ => l.forM f) = _ ↔ _
    rw [bind_eq_ok_iff, List.forall_mem_cons, ← ih]
    constructor
    · rintro ⟨⟨⟩, h, hl⟩
      exact ⟨h, hl⟩
    · rintro ⟨h, hl⟩
      exact ⟨(), h, hl⟩

namespace Edit

/-- What an edit answers, and the cabinet that it leaves. -/
def on (e : Edit α) (c : Cabinet) : Except Failure α × Cabinet := e.run.run c

variable (c : Cabinet)

@[simp] theorem on_pure (a : α) : (pure a : Edit α).on c = (.ok a, c) := rfl

@[simp] theorem on_throw (x : Failure) : (throw x : Edit α).on c = (.error x, c) := rfl

@[simp] theorem on_get : (get : Edit Cabinet).on c = (.ok c, c) := rfl

@[simp] theorem on_set (c' : Cabinet) : (set c' : Edit PUnit).on c = (.ok ⟨⟩, c') := rfl

@[simp] theorem on_liftM (x : Except Failure α) : (liftM x : Edit α).on c = (x, c) := by
  cases x <;> rfl

theorem on_bind (e : Edit α) (f : α → Edit β) :
    (e >>= f).on c =
      match e.on c with
      | (.ok a, c') => (f a).on c'
      | (.error x, c') => (.error x, c') := by
  show (match e c with | (a, c') => ExceptT.bindCont f a c') = _
  rw [show e.on c = e c from rfl]
  rcases e c with ⟨_ | a, c'⟩ <;> rfl

theorem on_get_bind (f : Cabinet → Edit β) : (get >>= f).on c = (f c).on c := rfl

theorem on_liftM_bind (x : Except Failure α) (f : α → Edit β) :
    (liftM x >>= f : Edit β).on c =
      match x with
      | .ok a => (f a).on c
      | .error e => (.error e, c) := by
  cases x <;> rfl

variable {c}

theorem on_bind_of_ok {e : Edit α} {f : α → Edit β} {a : α} {c' : Cabinet}
    (h : e.on c = (.ok a, c')) : (e >>= f).on c = (f a).on c' := by
  rw [on_bind, h]

theorem on_bind_pure (e : Edit α) (f : α → β) (c : Cabinet) :
    (e >>= fun a => pure (f a)).on c = ((e.on c).1.map f, (e.on c).2) := by
  rw [on_bind]
  rcases e.on c with ⟨_ | a, c'⟩ <;> rfl

theorem on_bind_rel {R : Cabinet → Cabinet → Prop} (htrans : ∀ {a b c}, R a b → R b c → R a c)
    {e : Edit α} {f : α → Edit β} (he : R c (e.on c).2)
    (hf : ∀ a c', R c' ((f a).on c').2) : R c ((e >>= f).on c).2 := by
  rw [on_bind]
  rcases h : e.on c with ⟨_ | a, c'⟩ <;> rw [h] at he
  · exact he
  · exact htrans he (hf a c')

end Edit

end Filing
