import Filing.Proofs.Document.Acceptance
import Filing.Proofs.Generation
import Filing.Session

/-!
# Kept breadcrumbs are right

A resolver may be asked about many cabinets, which are made, loaded, copied, changed and thrown away
in between.  All that it has to go by is the epoch and the generation that a kept path bears.  This
is enough: an epoch belongs to one cabinet, and a cabinet whose generation is the same as before
looks the same from below.

* `Honest`: what a resolver kept for the state of a cabinet is what is found anew.  An honest
  resolver **answers what one that has kept nothing answers** (`Honest.resolve`,
  `Honest.resolveVia`).
* `Office`: any number of cabinets and one resolver, and the steps that may be taken (`Step`).  A
  transaction is a copy that is thrown away if the transaction succeeds (`drop`), and that is put in
  the place of its original otherwise (`restore`).
* `Office.Truthful`: the invariant, kept by every step (`Truthful.step`).
* `Shows.transaction`: a transaction of a session is such a run of steps.
* `Office.resolver_answers_anew`: **in an office, every answer of the resolver is the answer of an
  empty one**, whatever has happened before.
-/

namespace Filing

open Cabinet Relation

/-! ## Resolvers -/

namespace Cabinet

/-- What is answered about a trail if nothing was kept. -/
def answer (c : Cabinet) (t : Trail) : Except Failure ItemPath :=
  if c.contains t.item then c.breadcrumb t else .error (.itemNotFound t.item)

/-- What is answered about the way through `via` if nothing was kept. -/
def answerVia (c : Cabinet) (item via root : ItemId) : Except Failure ItemPath := do
  let lower ← c.answer ⟨item, via, none⟩
  let upper ← c.answer ⟨via, root, none⟩
  return if lower.isEmpty || upper.isEmpty then .empty else upper.merge lower

end Cabinet

namespace Resolver

variable {c : Cabinet} {r r' r'' : Resolver}

/-- What was kept for the present state of a cabinet is what is found in it. -/
def Honest (r : Resolver) (c : Cabinet) : Prop :=
  ∀ t k, (t, k) ∈ r.kept → k.epoch = c.epoch → k.generation = c.generation →
    c.breadcrumb t = .ok k.path

/-- Whatever was kept since is what was found in `c`, marked with the state of `c`. -/
def Learns (c : Cabinet) (r r' : Resolver) : Prop :=
  ∀ t k, (t, k) ∈ r'.kept → (t, k) ∈ r.kept ∨
    c.breadcrumb t = .ok k.path ∧ k.epoch = c.epoch ∧ k.generation = c.generation

theorem Learns.trans (h : Learns c r r') (h' : Learns c r' r'') : Learns c r r'' := fun t k hm => by
  rcases h' t k hm with hm | hk
  · exact h t k hm
  · exact .inr hk

theorem Learns.of_subset (h : ∀ e ∈ r'.kept, e ∈ r.kept) : Learns c r r' :=
  fun _ _ hm => .inl (h _ hm)

theorem Learns.honest (h : Learns c r r') (hr : r.Honest c) : r'.Honest c :=
    fun t k hm he hg => by
  rcases h t k hm with hm | ⟨hb, _⟩
  · exact hr t k hm he hg
  · exact hb

theorem mem_kept_of_find? {t : Trail} {k : KeptPath} (h : r.find? t = some k) :
    (t, k) ∈ r.kept := by
  obtain ⟨⟨t', k'⟩, hf, rfl⟩ := Option.map_eq_some_iff.mp h
  have ht : t' = t := by simpa using List.find?_some hf
  exact ht ▸ List.mem_of_find?_eq_some hf

variable (r) (c) (t : Trail) (clock : Nat)

theorem refresh_fst : (r.refresh c t clock).1 = c.breadcrumb t := by
  rw [refresh]
  cases c.breadcrumb t <;> rfl

theorem learns_refresh : Learns c r (r.refresh c t clock).2 := by
  rw [refresh]
  cases hb : c.breadcrumb t with
  | error => exact .of_subset fun _ => id
  | ok path =>
    intro t' k hm
    rcases List.mem_cons.mp hm with heq | hm
    · cases heq
      exact .inr ⟨hb, rfl, rfl⟩
    · exact .inl (List.mem_of_mem_filter hm)

theorem learns_resolve : Learns c r (r.resolve c t clock).2 := by
  rw [resolve]
  split
  · exact .of_subset fun _ => id
  · split
    · split
      · exact .of_subset fun _ => id
      · exact learns_refresh c { r with stale := r.stale + 1 } t clock
    · exact learns_refresh c { r with misses := r.misses + 1 } t clock

theorem learns_resolveVia (item via root : ItemId) :
    Learns c r (r.resolveVia c item via root clock).2 := by
  have h₁ := r.learns_resolve c ⟨item, via, none⟩ clock
  have h₂ := (r.resolve c ⟨item, via, none⟩ clock).2.learns_resolve c ⟨via, root, none⟩ clock
  rw [resolveVia]
  rcases hl : r.resolve c ⟨item, via, none⟩ clock with ⟨_ | lower, r₁⟩ <;> rw [hl] at h₁ h₂
  · exact h₁
  · dsimp only at h₂ ⊢
    rcases hu : r₁.resolve c ⟨via, root, none⟩ clock with ⟨_ | upper, r₂⟩ <;> rw [hu] at h₂ <;>
      exact h₁.trans h₂

variable {r c}

/-- **An honest resolver answers as if nothing was kept.** -/
theorem Honest.resolve_fst (h : r.Honest c) : (r.resolve c t clock).1 = c.answer t := by
  rw [resolve, answer]
  cases c.contains t.item with
  | false => rfl
  | true =>
    simp only [Bool.not_true, Bool.false_eq_true, if_false, if_true]
    split
    · next k hk =>
      split
      · next hstate => exact (h t k (mem_kept_of_find? hk) hstate.1 hstate.2.1).symm
      · exact refresh_fst ..
    · exact refresh_fst ..

theorem Honest.resolveVia_fst (h : r.Honest c) (item via root : ItemId) :
    (r.resolveVia c item via root clock).1 = c.answerVia item via root := by
  have h₁ := h.resolve_fst ⟨item, via, none⟩ clock
  have hr := (r.learns_resolve c ⟨item, via, none⟩ clock).honest h
  rw [resolveVia, answerVia, ← h₁]
  rcases hl : r.resolve c ⟨item, via, none⟩ clock with ⟨_ | lower, r₁⟩ <;> rw [hl] at hr
  · rfl
  · have h₂ := hr.resolve_fst ⟨via, root, none⟩ clock
    rw [← h₂]
    dsimp only
    rcases r₁.resolve c ⟨via, root, none⟩ clock with ⟨_ | upper, r₂⟩ <;> rfl

theorem honest_new (lifetime : UInt64) (extra : Nat) (c : Cabinet) :
    (new lifetime extra).Honest c := fun _ _ hm => absurd hm List.not_mem_nil

end Resolver

/-! ## Offices -/

/-- A cabinet in use, with the number of changes of structure that it has seen. -/
structure Instance where
  cabinet : Cabinet
  changes : Nat

/-- Cabinets in use, each at a place, and the resolver that is asked about all of them. -/
structure Office where
  desk : Nat → Option Instance
  /-- The epochs that were handed out. -/
  epochs : List Epoch
  resolver : Resolver

namespace Office

/-- An office without cabinets, whose resolver has kept nothing. -/
def opened (lifetime : UInt64) (extra : Nat) : Office :=
  { desk := fun _ => none, epochs := [], resolver := .new lifetime extra }

/-- The office with something else at a place. -/
def put (o : Office) (p : Nat) (i : Option Instance) : Office :=
  { o with desk := Function.update o.desk p i }

/-- The office with a new cabinet at a place. -/
def enter (o : Office) (p : Nat) (c : Cabinet) : Office :=
  { o.put p (some ⟨c, 0⟩) with epochs := c.epoch :: o.epochs }

/-- What may happen in an office.  New cabinets, loaded ones and copies have epochs that were never
handed out before. -/
inductive Step (o : Office) : Office → Prop
  | construct (p : Nat) (settings : Settings) {e : Epoch} : e ∉ o.epochs →
      Step o (o.enter p (.empty settings e))
  | load (p : Nat) (text : String) (settings : Settings) {e : Epoch} {c : Cabinet} : e ∉ o.epochs →
      Cabinet.ofDocument text settings e = .ok c → Step o (o.enter p c)
  | copy {p : Nat} (q : Nat) {i : Instance} {e : Epoch} : e ∉ o.epochs → o.desk p = some i →
      Step o (o.enter q { i.cabinet with epoch := e })
  | restore {p q : Nat} {i : Instance} : o.desk q = some i →
      Step o ((o.put q none).put p (some i))
  | drop (p : Nat) : Step o (o.put p none)
  | perform {p n : Nat} {i : Instance} (op : Operation) : o.desk p = some i →
      Advances n i.cabinet (op.after i.cabinet) →
      Step o (o.put p (some ⟨op.after i.cabinet, i.changes + n⟩))
  | configure {p : Nat} {i : Instance} (settings : Settings) : o.desk p = some i →
      Step o (o.put p (some { i with cabinet := { i.cabinet with settings } }))
  | ask {p : Nat} {i : Instance} (t : Trail) (clock : Nat) : o.desk p = some i →
      Step o { o with resolver := (o.resolver.resolve i.cabinet t clock).2 }
  | askVia {p : Nat} {i : Instance} (item via root : ItemId) (clock : Nat) : o.desk p = some i →
      Step o { o with resolver := (o.resolver.resolveVia i.cabinet item via root clock).2 }
  | clear : Step o { o with resolver := o.resolver.clear }
  | dropExpired (clock : Nat) : Step o { o with resolver := o.resolver.dropExpired clock }

variable {o : Office}

theorem exists_perform {p : Nat} {i : Instance} (hi : o.desk p = some i) (op : Operation) :
    ∃ n, Step o (o.put p (some ⟨op.after i.cabinet, i.changes + n⟩)) := by
  obtain ⟨n, hn⟩ := op.follows_after i.cabinet
  exact ⟨n, .perform op hi hn⟩

end Office

/-! ## The invariant -/

/-- A kept path was right for an earlier state of the cabinet, and if no change of structure came
after it, it is right now. -/
def Instance.Recalls (i : Instance) (t : Trail) (k : KeptPath) : Prop :=
  ∃ n ≤ i.changes, i.cabinet.generation = k.generation + .ofNat n ∧
    (n = 0 → i.cabinet.breadcrumb t = .ok k.path)

theorem Instance.Recalls.advances {i : Instance} {t : Trail} {k : KeptPath} {c : Cabinet} {m : Nat}
    (h : i.Recalls t k) (hc : Advances m i.cabinet c) :
    Instance.Recalls ⟨c, i.changes + m⟩ t k := by
  obtain ⟨n, hn, hg, hb⟩ := h
  refine ⟨n + m, Nat.add_le_add_right hn m, ?_, fun hz => ?_⟩
  · rw [hc.generation, hg, UInt64.ofNat_add, UInt64.add_assoc]
  · obtain ⟨rfl, rfl⟩ : n = 0 ∧ m = 0 := by omega
    exact (hc.sameAbove.breadcrumb t).trans (hb rfl)

namespace Office

variable {o o' : Office}

/-- Epochs tell the cabinets apart, and what was kept under the epoch of a cabinet was right for an
earlier state of this cabinet. -/
structure Truthful (o : Office) : Prop where
  issued : ∀ {p i}, o.desk p = some i → i.cabinet.epoch ∈ o.epochs
  apart : ∀ {p q i j}, o.desk p = some i → o.desk q = some j →
    i.cabinet.epoch = j.cabinet.epoch → p = q
  kept_issued : ∀ {t k}, (t, k) ∈ o.resolver.kept → k.epoch ∈ o.epochs
  recalls : ∀ {t k p i}, (t, k) ∈ o.resolver.kept → o.desk p = some i →
    k.epoch = i.cabinet.epoch → i.Recalls t k

theorem truthful_opened (lifetime : UInt64) (extra : Nat) : (opened lifetime extra).Truthful where
  issued h := nomatch h
  apart h := nomatch h
  kept_issued h := absurd h List.not_mem_nil
  recalls h := absurd h List.not_mem_nil

namespace Truthful

variable {p q : Nat} {i j : Instance}

theorem desk_put {x : Option Instance} (h : (o.put p x).desk q = some j) :
    q = p ∧ x = some j ∨ q ≠ p ∧ o.desk q = some j := by
  change Function.update o.desk p x q = some j at h
  by_cases hq : q = p
  · subst hq
    exact .inl ⟨rfl, by rwa [Function.update_self] at h⟩
  · exact .inr ⟨hq, by rwa [Function.update_of_ne hq] at h⟩

theorem drop (h : o.Truthful) (p : Nat) : (o.put p none).Truthful where
  issued hi := by
    rcases desk_put hi with ⟨_, hx⟩ | ⟨_, hi⟩
    · cases hx
    · exact h.issued hi
  apart hi hj he := by
    rcases desk_put hi with ⟨_, hx⟩ | ⟨_, hi⟩
    · cases hx
    rcases desk_put hj with ⟨_, hx⟩ | ⟨_, hj⟩
    · cases hx
    exact h.apart hi hj he
  kept_issued := h.kept_issued
  recalls hm hi he := by
    rcases desk_put hi with ⟨_, hx⟩ | ⟨_, hi⟩
    · cases hx
    · exact h.recalls hm hi he

theorem put_some (h : o.Truthful) (hissued : i.cabinet.epoch ∈ o.epochs)
    (hown : ∀ {q j}, q ≠ p → o.desk q = some j → j.cabinet.epoch ≠ i.cabinet.epoch)
    (hrecalls : ∀ {t k}, (t, k) ∈ o.resolver.kept → k.epoch = i.cabinet.epoch → i.Recalls t k) :
    (o.put p (some i)).Truthful where
  issued hi := by
    rcases desk_put hi with ⟨_, hx⟩ | ⟨_, hi⟩
    · cases hx
      exact hissued
    · exact h.issued hi
  apart hi hj he := by
    rcases desk_put hi with ⟨hp, hx⟩ | ⟨hp, hi⟩ <;> rcases desk_put hj with ⟨hq, hy⟩ | ⟨hq, hj⟩
    · exact hp.trans hq.symm
    · cases hx
      exact absurd he.symm (hown hq hj)
    · cases hy
      exact absurd he (hown hp hi)
    · exact h.apart hi hj he
  kept_issued := h.kept_issued
  recalls hm hi he := by
    rcases desk_put hi with ⟨_, hx⟩ | ⟨_, hi⟩
    · cases hx
      exact hrecalls hm he
    · exact h.recalls hm hi he

theorem enter (h : o.Truthful) {c : Cabinet} (he : c.epoch ∉ o.epochs) (p : Nat) :
    (o.enter p c).Truthful := by
  have ho : Truthful { o with epochs := c.epoch :: o.epochs } :=
    { issued := fun hi => List.mem_cons_of_mem _ (h.issued hi)
      apart := h.apart
      kept_issued := fun hm => List.mem_cons_of_mem _ (h.kept_issued hm)
      recalls := h.recalls }
  refine ho.put_some List.mem_cons_self (fun _ hj hje => ?_) fun hm hk => ?_
  · exact he (hje ▸ h.issued hj)
  · exact absurd (hk ▸ h.kept_issued hm) he

theorem restore (h : o.Truthful) (hi : o.desk q = some i) (p : Nat) :
    ((o.put q none).put p (some i)).Truthful := by
  refine (h.drop q).put_some (h.issued hi) (fun _ hj he => ?_) fun hm => h.recalls hm hi
  rcases desk_put hj with ⟨_, hx⟩ | ⟨hne, hj⟩
  · cases hx
  · exact hne (h.apart hj hi he)

theorem advance (h : o.Truthful) (hi : o.desk p = some i) {c : Cabinet} {n : Nat}
    (hc : Advances n i.cabinet c) : (o.put p (some ⟨c, i.changes + n⟩)).Truthful := by
  refine h.put_some (hc.epoch ▸ h.issued hi) (fun hne hj he => ?_) fun hm hk => ?_
  · exact hne (h.apart hj hi (he.trans hc.epoch))
  · exact (h.recalls hm hi (hk.trans hc.epoch)).advances hc

theorem learn (h : o.Truthful) (hi : o.desk p = some i) {r : Resolver}
    (hr : Resolver.Learns i.cabinet o.resolver r) : Truthful { o with resolver := r } where
  issued := h.issued
  apart := h.apart
  kept_issued hm := by
    rcases hr _ _ hm with hm | ⟨_, he, _⟩
    · exact h.kept_issued hm
    · exact he ▸ h.issued hi
  recalls hm hj he := by
    rcases hr _ _ hm with hm | ⟨hb, hke, hg⟩
    · exact h.recalls hm hj he
    · obtain rfl := h.apart hi hj (hke.symm.trans he)
      cases hi.symm.trans hj
      exact ⟨0, Nat.zero_le _, hg.symm.trans (UInt64.add_zero _).symm, fun _ => hb⟩

theorem forget (h : o.Truthful) {r : Resolver} (hr : ∀ e ∈ r.kept, e ∈ o.resolver.kept) :
    Truthful { o with resolver := r } where
  issued := h.issued
  apart := h.apart
  kept_issued hm := h.kept_issued (hr _ hm)
  recalls hm := h.recalls (hr _ hm)

/-- **Every step keeps the invariant.** -/
theorem step (h : o.Truthful) (hs : Step o o') : o'.Truthful := by
  cases hs with
  | construct p settings he => exact h.enter he p
  | load p text settings he hc =>
    refine h.enter ?_ p
    rwa [(of_ofDocument hc).2.1]
  | copy q he _ => exact h.enter he q
  | restore hi => exact h.restore hi _
  | drop p => exact h.drop p
  | perform op hi hc => exact h.advance hi hc
  | @configure _ i settings hi =>
    have hc : Advances 0 i.cabinet { i.cabinet with settings } :=
      .quiet ⟨fun _ => rfl, fun _ => rfl⟩ rfl rfl
    exact h.advance hi hc
  | ask t clock hi => exact h.learn hi (o.resolver.learns_resolve _ t clock)
  | askVia item via root clock hi =>
    exact h.learn hi (o.resolver.learns_resolveVia _ clock item via root)
  | clear => exact h.forget fun _ hm => absurd hm List.not_mem_nil
  | dropExpired clock => exact h.forget fun _ => List.mem_of_mem_filter

theorem of_steps {lifetime : UInt64} {extra : Nat}
    (h : ReflTransGen Step (opened lifetime extra) o) : o.Truthful := by
  induction h with
  | refl => exact truthful_opened lifetime extra
  | tail _ hs ih => exact ih.step hs

/-- **The resolver is honest about every cabinet** that has seen fewer than `2 ^ 64` changes of
structure. -/
theorem honest (h : o.Truthful) (hi : o.desk p = some i) (hn : i.changes < 2 ^ 64) :
    o.resolver.Honest i.cabinet := by
  intro t k hm he hg
  obtain ⟨n, hle, hgen, hb⟩ := h.recalls hm hi he
  refine hb ?_
  have hz : UInt64.ofNat n = 0 := by
    rw [← hg] at hgen
    exact UInt64.left_eq_add.mp hgen
  have := congrArg UInt64.toNat hz
  rwa [UInt64.toNat_ofNat_of_lt' (Nat.lt_of_le_of_lt hle hn)] at this

end Truthful

/-- **Every answer of the resolver is the answer of an empty one**, about every cabinet of the
office, whatever has happened to the cabinets and to the resolver before. -/
theorem resolver_answers_anew {lifetime : UInt64} {extra : Nat}
    (h : ReflTransGen Step (opened lifetime extra) o) {p : Nat} {i : Instance}
    (hi : o.desk p = some i) (hn : i.changes < 2 ^ 64) (lifetime' : UInt64)
    (extra' clock clock' : Nat) :
    (∀ t, (o.resolver.resolve i.cabinet t clock).1 =
      ((Resolver.new lifetime' extra').resolve i.cabinet t clock').1) ∧
    ∀ item via root, (o.resolver.resolveVia i.cabinet item via root clock).1 =
      ((Resolver.new lifetime' extra').resolveVia i.cabinet item via root clock').1 := by
  have hr := (Truthful.of_steps h).honest hi hn
  have hnew := Resolver.honest_new lifetime' extra' i.cabinet
  refine ⟨fun t => ?_, fun item via root => ?_⟩
  · rw [hr.resolve_fst, hnew.resolve_fst]
  · rw [hr.resolveVia_fst, hnew.resolveVia_fst]

/-- A path that is found while a transaction goes on is not used after the transaction has failed,
although the cabinet has come to the same generation again. -/
theorem resolver_answers_anew_rolledBack :
    ∃ o i k, ReflTransGen Step (opened 60 0) o ∧ o.desk 0 = some i ∧ i.changes < 2 ^ 64 ∧
      o.resolver.find? ⟨.ofNat 2, .ofNat 1, none⟩ = some k ∧
      k.generation = i.cabinet.generation ∧ k.path = ⟨[.ofNat 1, .ofNat 2]⟩ ∧
      (o.resolver.resolve i.cabinet ⟨.ofNat 2, .ofNat 1, none⟩ 0).1 = .ok .empty := by
  have h₁ : ReflTransGen Step (opened 60 0) _ :=
    .tail .refl (.construct 0 .standard (e := 0) List.not_mem_nil)
  have h₂ := h₁.tail
    (.perform (p := 0) (.insert (.bare 1 (.container .folder) [])) rfl (.counted rfl rfl))
  have h₃ := h₂.tail (.perform (p := 0) (.insert (.bare 2 .document [])) rfl (.counted rfl rfl))
  have h₄ := h₃.tail (.copy (p := 0) 1 (e := 1) (by decide) rfl)
  have h₅ := h₄.tail (.perform (p := 0) (.add (.ofNat 1) (.ofNat 2) (.bare .null)) rfl
    (.counted (by cbv) (by cbv)))
  have h₆ := h₅.tail (.ask (p := 0) ⟨.ofNat 2, .ofNat 1, none⟩ 0 rfl)
  have h₇ := h₆.tail (.restore (p := 0) (q := 1) rfl)
  have h₈ := h₇.tail (.perform (p := 0) (.insert (.bare 3 .document [])) rfl (.counted rfl rfl))
  refine ⟨_, _, _, h₈, rfl, by decide, by cbv, by cbv, by cbv, ?_⟩
  rw [(resolver_answers_anew h₈ (p := 0) rfl (by decide) 60 0 0 0).1]
  cbv

/-! ## Sessions -/

/-- The cabinet of a session stands at a place of the office, and they share the resolver. -/
structure Shows (o : Office) (p : Nat) (s : Session) : Prop where
  desk : ∃ n, o.desk p = some ⟨s.cabinet, n⟩
  resolver : o.resolver = s.resolver
  epochs : ∀ e ∈ o.epochs, e < s.nextEpoch

namespace Shows

variable {p q : Nat} {s : Session}

theorem edit (h : o.Shows p s) (op : Operation) :
    ∃ o', Step o o' ∧ (∀ q, q ≠ p → o'.desk q = o.desk q) ∧ o'.Shows p (s.edit op.perform).2 := by
  obtain ⟨n, hn⟩ := h.desk
  obtain ⟨m, hs⟩ := exists_perform hn op
  exact ⟨_, hs, fun q hq => Function.update_of_ne hq .., ⟨n + m, Function.update_self ..⟩,
    h.resolver, h.epochs⟩

/-- **A transaction of a session is a run of the office** if its body is one that leaves the saved
cabinet alone. -/
theorem transaction {ε α : Type} {body : Session → Except ε α × Session} (h : o.Shows p s)
    (hq : q ≠ p)
    (hbody : ∀ o₁ s₁, Shows o₁ p s₁ → ∃ o₂, ReflTransGen Step o₁ o₂ ∧ o₂.desk q = o₁.desk q ∧
      o₂.Shows p (body s₁).2) :
    ∃ o', ReflTransGen Step o o' ∧ o'.Shows p (s.transaction body).2 := by
  obtain ⟨n, hn⟩ := h.desk
  have hfresh : s.nextEpoch ∉ o.epochs := fun hm => Nat.lt_irrefl _ (h.epochs _ hm)
  have hcopy : Step o (o.enter q { s.cabinet with epoch := s.nextEpoch }) :=
    .copy q hfresh hn
  have hshows : (o.enter q { s.cabinet with epoch := s.nextEpoch }).Shows p s.copy.2 :=
    { desk := ⟨n, (Function.update_of_ne hq.symm ..).trans hn⟩
      resolver := h.resolver
      epochs := List.forall_mem_cons.mpr
        ⟨Nat.lt_succ_self _, fun e hm => Nat.lt_succ_of_lt (h.epochs e hm)⟩ }
  obtain ⟨o₂, hrun, hsaved, h₂⟩ := hbody _ _ hshows
  have hsaved : o₂.desk q = some ⟨{ s.cabinet with epoch := s.nextEpoch }, 0⟩ :=
    hsaved.trans (Function.update_self ..)
  have hrun := ReflTransGen.head hcopy hrun
  rcases hb : body s.copy.2 with ⟨x | a, s₂⟩ <;> rw [hb] at h₂
  · have ht : s.transaction body =
        (.error x, s₂.withCabinet { s.cabinet with epoch := s.nextEpoch }) := by
      simp only [Session.transaction, hb]
      rfl
    rw [ht]
    exact ⟨_, hrun.tail (.restore (p := p) hsaved),
      ⟨0, Function.update_self ..⟩, h₂.resolver, h₂.epochs⟩
  · have ht : s.transaction body = (.ok a, s₂) := by
      simp only [Session.transaction, hb]
    rw [ht]
    obtain ⟨m, hm⟩ := h₂.desk
    exact ⟨_, hrun.tail (.drop q),
      ⟨m, (Function.update_of_ne hq.symm ..).trans hm⟩, h₂.resolver, h₂.epochs⟩

theorem atomically (h : o.Shows p s) (op : Operation) :
    ∃ o', ReflTransGen Step o o' ∧ o'.Shows p (s.atomically op.perform).2 := by
  refine h.transaction p.succ_ne_self fun o₁ s₁ h₁ => ?_
  obtain ⟨o₂, hs, hq, h₂⟩ := h₁.edit op
  exact ⟨o₂, .single hs, hq _ p.succ_ne_self, h₂⟩

end Shows

end Office

end Filing
