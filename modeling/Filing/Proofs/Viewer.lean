import Filing.Proofs.Ascent.Shortest
import Filing.Proofs.Breadcrumb

/-!
# What a viewer is shown

A breadcrumb that is resolved for a viewer must not lead through a sharing area of someone else, and
must not be shorter, longer or missing because another viewer asked before.

* `Sound.breadcrumb_rightFor`: **the path that a viewer is shown is a right one** (`RightFor`): it
  has no top of a sharing area of someone else above the item, none of the chains without such tops
  is shorter, and it is empty only if there is no such chain.  A boundary that cuts a short chain
  off does not hide a longer one.
* `Resolver.resolve_callAll_filter`: **what a resolver answers to a viewer is what it would answer
  if nobody else had ever asked it**, about any cabinet, in order or not, and whatever it has kept.
* `breadcrumb_for_viewer`: both, for every cabinet that is built and every resolver in use.
-/

namespace Filing

open Relation Cabinet

/-! ## The path -/

namespace Cabinet

variable {c : Cabinet} {user : Principal} {root item x : ItemId} {l : List ItemId}

/-- The item is the top of a sharing area of someone else. -/
def Foreign (c : Cabinet) (user : Principal) (id : ItemId) : Prop :=
  ∃ i, c.item? id = some i ∧ i.isSharingRoot = true ∧ i.owner ≠ user

/-- The items are a chain of memberships from `root` down to `item`, and none but the item itself is
the top of a sharing area of someone else. -/
structure ChainFor (c : Cabinet) (user : Principal) (root item : ItemId) (l : List ItemId) :
    Prop where
  head : l.head? = some root
  last : l.getLast? = some item
  holds : l.IsChain c.Holds
  not_foreign : ∀ x ∈ l, x ≠ item → ¬c.Foreign user x

/-- **The path is what the viewer is to be shown**: a shortest of the chains that the viewer may
see, or an empty one if there is none. -/
structure RightFor (c : Cabinet) (user : Principal) (root item : ItemId) (p : ItemPath) : Prop where
  not_foreign : ∀ x ∈ p.nodes, x ≠ item → ¬c.Foreign user x
  isEmpty_iff : p.isEmpty = true ↔ ∀ l, ¬c.ChainFor user root item l
  chain : p.isEmpty = false → c.ChainFor user root item p.nodes
  shortest : ∀ l, c.ChainFor user root item l → p.length ≤ l.length

theorem foreignBoundary_iff {edge : Edge} :
    c.foreignBoundary user edge = true ↔ c.Foreign user edge.container := by
  simp [foreignBoundary, Foreign, Option.any_eq_true]

/-- The search for the breadcrumb of a viewer climbs to whatever holds an item and is not the top
of a sharing area of someone else. -/
theorem Coherent.climbs_trailQuest_iff (h : c.Coherent) {id up : ItemId} :
    c.Climbs (c.trailQuest ⟨item, root, some user⟩) id up ↔
      c.Holds up id ∧ ¬c.Foreign user up := by
  rw [h.climbs_iff_edge]
  constructor
  · rintro ⟨e, edge, he, rfl, rfl, hb⟩
    refine ⟨⟨e, edge, he, rfl, rfl⟩, fun hf => ?_⟩
    exact Bool.eq_false_iff.mp hb (foreignBoundary_iff.mpr hf)
  · rintro ⟨⟨e, edge, he, rfl, rfl⟩, hf⟩
    exact ⟨e, edge, he, rfl, rfl, Bool.eq_false_iff.mpr fun hb => hf (foreignBoundary_iff.mp hb)⟩

namespace ChainFor

theorem singleton (c : Cabinet) (user : Principal) (item : ItemId) :
    c.ChainFor user item item [item] where
  head := rfl
  last := rfl
  holds := .singleton _
  not_foreign _ hx hne := absurd (List.mem_singleton.mp hx) hne

theorem up (h : c.ChainFor user x item l) {top : ItemId} (hholds : c.Holds top x)
    (hf : ¬c.Foreign user top) : c.ChainFor user top item (top :: l) := by
  cases l with
  | nil => cases h.head
  | cons y l =>
    obtain rfl : y = x := Option.some.inj h.head
    refine ⟨rfl, ?_, .cons_cons hholds h.holds,
      List.forall_mem_cons.mpr ⟨fun _ => hf, h.not_foreign⟩⟩
    rw [List.getLast?_cons_cons]
    exact h.last

theorem tail {y : ItemId} (h : c.ChainFor user root item (x :: y :: l)) :
    c.Holds x y ∧ c.ChainFor user y item (y :: l) := by
  have hholds := h.holds
  rw [List.isChain_cons_cons] at hholds
  refine ⟨hholds.1, rfl, ?_, hholds.2, fun x hx => h.not_foreign x (List.mem_cons_of_mem _ hx)⟩
  rw [← List.getLast?_cons_cons]
  exact h.last

theorem reachable (h : c.ChainFor user x item l) : ReflTransGen c.Holds x item := by
  induction l generalizing x with
  | nil => cases h.head
  | cons y l ih =>
    obtain rfl : y = x := Option.some.inj h.head
    cases l with
    | nil =>
      obtain rfl : y = item := Option.some.inj h.last
      exact .refl
    | cons z l => exact .head h.tail.1 (ih h.tail.2)

end ChainFor

/-- **The ways of the search are the chains that the viewer may see.** -/
theorem Coherent.way_iff_chainFor (h : c.Coherent) (ha : c.Acyclic) :
    c.Way (c.trailQuest ⟨item, root, some user⟩) item x l ↔ c.ChainFor user x item l := by
  constructor
  · intro hw
    induction hw with
    | start => exact .singleton c user item
    | up _ hup ih =>
      obtain ⟨hholds, hf⟩ := h.climbs_trailQuest_iff.mp hup
      exact ih.up hholds hf
  · intro hc
    induction l generalizing x with
    | nil => cases hc.head
    | cons y l ih =>
      obtain rfl : y = x := Option.some.inj hc.head
      cases l with
      | nil =>
        obtain rfl : y = item := Option.some.inj hc.last
        exact .start
      | cons z l =>
        obtain ⟨hholds, htail⟩ := hc.tail
        -- the top is not the item, which would lie above itself
        have hne : y ≠ item := by
          rintro rfl
          exact ha y (.head' hholds htail.reachable)
        have hf := hc.not_foreign y List.mem_cons_self hne
        exact (ih htail).up (h.climbs_trailQuest_iff.mpr ⟨hholds, hf⟩)

/-- **The path that a viewer is shown is a right one.** -/
theorem Sound.breadcrumb_rightFor (h : c.Sound) (user : Principal) (root : ItemId)
    (hs : ∃ i, c.item? item = some i) :
    ∃ p, c.breadcrumb ⟨item, root, some user⟩ = .ok p ∧ c.RightFor user root item p := by
  obtain ⟨p, hp, hr⟩ := h.toCoherent.shortestPath?_tells
    (q := c.trailQuest ⟨item, root, some user⟩) h.acyclic hs
  refine ⟨p, by rw [breadcrumb_eq, hp], ?_⟩
  have hway : ∀ {x l}, c.Way (c.trailQuest ⟨item, root, some user⟩) item x l ↔
      c.ChainFor user x item l := h.toCoherent.way_iff_chainFor h.acyclic
  -- a chain from the root is a way to what is looked for
  have htarget : ∀ {l}, c.ChainFor user root item l →
      ∃ j, c.item? root = some j ∧ (c.trailQuest ⟨item, root, some user⟩).isTarget j = true := by
    intro l hc
    obtain ⟨j, hj⟩ := (hway.mpr hc).stored hs
    exact ⟨j, hj, decide_eq_true (h.item_id hj)⟩
  have hchain : p.isEmpty = false → c.ChainFor user root item p.nodes := by
    intro hne
    obtain ⟨x, j, hw, hj, ht⟩ := hr.way hne
    obtain rfl : x = root := (h.item_id hj).symm.trans (of_decide_eq_true ht)
    exact hway.mp hw
  refine
    { not_foreign := fun x hx => ?not_foreign
      isEmpty_iff := ⟨fun he l hc => ?none, fun hall => ?empty⟩
      chain := hchain
      shortest := fun l hc => ?shortest }
  case not_foreign =>
    refine (hchain ?_).not_foreign x hx
    exact List.isEmpty_eq_false_iff.mpr (List.ne_nil_of_mem hx)
  case none =>
    obtain ⟨j, hj, ht⟩ := htarget hc
    rw [hr.isEmpty_iff.mp he root j l (hway.mpr hc) hj] at ht
    cases ht
  case empty =>
    rw [← Bool.not_eq_false]
    exact fun hne => hall _ (hchain hne)
  case shortest =>
    cases he : p.isEmpty with
    | true =>
      rw [ItemPath.length, List.isEmpty_iff.mp he]
      exact Nat.zero_le _
    | false =>
      obtain ⟨j, hj, ht⟩ := htarget hc
      exact hr.nearest he (hway.mpr hc) hj ht

end Cabinet

/-! ## The resolver -/

/-- What may be asked of a resolver, and what else may be done to it. -/
inductive Call where
  | ask (c : Cabinet) (t : Trail) (clock : Nat)
  | askVia (c : Cabinet) (item via root : ItemId) (clock : Nat)
  | clear
  | dropExpired (clock : Nat)

/-- The call is a question of `user`, or no question of anybody. -/
def Call.concerns (user : Principal) : Call → Bool
  | ask _ t _ => t.viewer = some user
  | askVia .. => false
  | clear => true
  | dropExpired _ => true

namespace Resolver

variable {c : Cabinet} {user : Principal} {r r' : Resolver} {t : Trail} {k : KeptPath}

/-- The resolver after a call. -/
def call (r : Resolver) : Call → Resolver
  | .ask c t clock => (r.resolve c t clock).2
  | .askVia c item via root clock => (r.resolveVia c item via root clock).2
  | .clear => r.clear
  | .dropExpired clock => r.dropExpired clock

/-- The resolver after a list of calls. -/
def callAll (r : Resolver) (l : List Call) : Resolver := l.foldl call r

/-- The paths that were kept for a viewer. -/
def keptFor (r : Resolver) (user : Principal) : List (Trail × KeptPath) :=
  r.kept.filter fun e => e.1.viewer = some user

/-- The resolvers keep the same for a viewer, and for the same time. -/
structure AgreeFor (user : Principal) (r r' : Resolver) : Prop where
  keptFor : r.keptFor user = r'.keptFor user
  lifetime : r.lifetime = r'.lifetime
  extra : r.extra = r'.extra

namespace AgreeFor

theorem refl (user : Principal) (r : Resolver) : AgreeFor user r r := ⟨rfl, rfl, rfl⟩

theorem trans {r'' : Resolver} (h : AgreeFor user r r') (h' : AgreeFor user r' r'') :
    AgreeFor user r r'' :=
  ⟨h.keptFor.trans h'.keptFor, h.lifetime.trans h'.lifetime, h.extra.trans h'.extra⟩

theorem isExpired (h : AgreeFor user r r') (k : KeptPath) (clock : Nat) :
    r.isExpired k clock = r'.isExpired k clock := by
  rw [Resolver.isExpired, Resolver.isExpired, h.lifetime, h.extra]

theorem find? (h : AgreeFor user r r') (ht : t.viewer = some user) : r.find? t = r'.find? t := by
  have hown : ∀ r : Resolver, r.find? t = ((r.keptFor user).find? fun e => e.1 = t).map (·.2) := by
    intro r
    rw [Resolver.find?, Resolver.keptFor, List.find?_filter]
    congr 2
    funext e
    by_cases he : e.1 = t <;> simp [he, ht]
  rw [hown, hown, h.keptFor]

theorem keep (h : AgreeFor user r r') (t : Trail) (k : KeptPath) :
    AgreeFor user (r.keep t k) (r'.keep t k) where
  keptFor := by
    have hown : ∀ r : Resolver, (r.keep t k).keptFor user =
        [(t, k)].filter (fun e => e.1.viewer = some user) ++
          (r.keptFor user).filter fun e => e.1 ≠ t := by
      intro r
      rw [Resolver.keptFor, Resolver.keep, Resolver.keptFor, List.filter_comm, ← List.filter_append]
      rfl
    rw [hown, hown, h.keptFor]
  lifetime := h.lifetime
  extra := h.extra

theorem keep_other (r : Resolver) (ht : t.viewer ≠ some user) (k : KeptPath) :
    AgreeFor user (r.keep t k) r where
  keptFor := by
    have hne : ∀ e : Trail × KeptPath, e.1.viewer = some user → e.1 ≠ t := fun e he heq =>
      ht (heq ▸ he)
    rw [Resolver.keptFor, Resolver.keep, List.filter_cons_of_neg (by simpa using ht),
      List.filter_filter]
    exact List.filter_congr fun e _ => by simpa using hne e
  lifetime := rfl
  extra := rfl

theorem refresh (h : AgreeFor user r r') (c : Cabinet) (t : Trail) (clock : Nat) :
    (r.refresh c t clock).1 = (r'.refresh c t clock).1 ∧
      AgreeFor user (r.refresh c t clock).2 (r'.refresh c t clock).2 := by
  rw [Resolver.refresh, Resolver.refresh]
  cases c.breadcrumb t with
  | error => exact ⟨rfl, h⟩
  | ok path => exact ⟨rfl, h.keep t _⟩

theorem refresh_other (r : Resolver) (c : Cabinet) (ht : t.viewer ≠ some user) (clock : Nat) :
    AgreeFor user (r.refresh c t clock).2 r := by
  rw [Resolver.refresh]
  cases c.breadcrumb t with
  | error => exact refl user r
  | ok path => exact keep_other r ht _

theorem resolve (h : AgreeFor user r r') (c : Cabinet) (ht : t.viewer = some user) (clock : Nat) :
    (r.resolve c t clock).1 = (r'.resolve c t clock).1 ∧
      AgreeFor user (r.resolve c t clock).2 (r'.resolve c t clock).2 := by
  rw [Resolver.resolve, Resolver.resolve, ← h.find? ht]
  split
  · exact ⟨rfl, h⟩
  · cases r.find? t with
    | none =>
      have hmissed : AgreeFor user { r with misses := r.misses + 1 }
          { r' with misses := r'.misses + 1 } := ⟨h.keptFor, h.lifetime, h.extra⟩
      exact hmissed.refresh c t clock
    | some k =>
      have hstale : AgreeFor user { r with stale := r.stale + 1 }
          { r' with stale := r'.stale + 1 } := ⟨h.keptFor, h.lifetime, h.extra⟩
      simp only [← h.isExpired k clock]
      split
      · exact ⟨rfl, h.keptFor, h.lifetime, h.extra⟩
      · exact hstale.refresh c t clock

theorem resolve_other (r : Resolver) (c : Cabinet) (ht : t.viewer ≠ some user) (clock : Nat) :
    AgreeFor user (r.resolve c t clock).2 r := by
  rw [Resolver.resolve]
  split
  · exact refl user r
  · split
    · split
      · exact ⟨rfl, rfl, rfl⟩
      · exact (refresh_other _ c ht clock).trans ⟨rfl, rfl, rfl⟩
    · exact (refresh_other _ c ht clock).trans ⟨rfl, rfl, rfl⟩

theorem resolveVia_other (user : Principal) (r : Resolver) (c : Cabinet) (item via root : ItemId)
    (clock : Nat) : AgreeFor user (r.resolveVia c item via root clock).2 r := by
  have hplain : ∀ (r : Resolver) (item root : ItemId),
      AgreeFor user (r.resolve c ⟨item, root, none⟩ clock).2 r := fun r _ _ =>
    resolve_other r c (Option.some_ne_none user).symm clock
  have h₁ := hplain r item via
  have h₂ := hplain (r.resolve c ⟨item, via, none⟩ clock).2 via root
  rw [Resolver.resolveVia]
  rcases hl : r.resolve c ⟨item, via, none⟩ clock with ⟨_ | lower, r₁⟩ <;> rw [hl] at h₁ h₂
  · exact h₁
  · dsimp only at h₂ ⊢
    rcases hu : r₁.resolve c ⟨via, root, none⟩ clock with ⟨_ | upper, r₂⟩ <;> rw [hu] at h₂ <;>
      exact h₂.trans h₁

theorem dropExpired (h : AgreeFor user r r') (clock : Nat) :
    AgreeFor user (r.dropExpired clock) (r'.dropExpired clock) where
  keptFor := by
    have hown : ∀ r : Resolver, (r.dropExpired clock).keptFor user =
        (r.keptFor user).filter fun e => !r.isExpired e.2 clock := fun r => List.filter_comm ..
    rw [hown, hown, h.keptFor]
    exact List.filter_congr fun e _ => by rw [h.isExpired]
  lifetime := h.lifetime
  extra := h.extra

theorem call (h : AgreeFor user r r') {a : Call} (ha : a.concerns user = true) :
    AgreeFor user (r.call a) (r'.call a) := by
  cases a with
  | ask c t clock => exact (h.resolve c (of_decide_eq_true ha) clock).2
  | askVia => cases ha
  | clear => exact ⟨rfl, h.lifetime, h.extra⟩
  | dropExpired clock => exact h.dropExpired clock

theorem call_other (r : Resolver) {a : Call} (ha : a.concerns user = false) :
    AgreeFor user (r.call a) r := by
  cases a with
  | ask c t clock => exact resolve_other r c (of_decide_eq_false ha) clock
  | askVia c item via root clock => exact resolveVia_other user r c item via root clock
  | clear => cases ha
  | dropExpired => cases ha

theorem callAll (h : AgreeFor user r r') (l : List Call) :
    AgreeFor user (r.callAll l) (r'.callAll (l.filter (·.concerns user))) := by
  induction l generalizing r r' with
  | nil => exact h
  | cons a rest ih =>
    cases ha : a.concerns user with
    | true =>
      rw [List.filter_cons_of_pos ha]
      exact ih (h.call ha)
    | false =>
      rw [List.filter_cons_of_neg (by simp [ha])]
      exact ih ((call_other r ha).trans h)

end AgreeFor

/-- **What a resolver answers to a viewer is what it would answer if nobody else had asked.** -/
theorem resolve_callAll_filter (r : Resolver) (l : List Call) (c : Cabinet) (clock : Nat)
    (ht : t.viewer = some user) :
    ((r.callAll l).resolve c t clock).1 =
      ((r.callAll (l.filter (·.concerns user))).resolve c t clock).1 :=
  (((AgreeFor.refl user r).callAll l).resolve c ht clock).1

end Resolver

/-! ## Built cabinets -/

theorem Office.exists_performAll {o : Office} {place m : Nat} {c : Cabinet} {l : List Operation}
    (hd : o.desk place = some ⟨c, m⟩)
    (hl : AllAllowed (fun c op => (op.after c).generation = c.generation + 1) l c) :
    ∃ o', ReflTransGen Step o o' ∧ o'.resolver = o.resolver ∧
      o'.desk place = some ⟨afterAll l c, m + l.length⟩ := by
  induction l generalizing o c m with
  | nil => exact ⟨o, .refl, rfl, hd⟩
  | cons op rest ih =>
    obtain ⟨_, hn⟩ := op.follows_after c
    have hs : Step o (o.put place (some ⟨op.after c, m + 1⟩)) :=
      .perform op hd (.counted hn.epoch hl.1)
    have hd' : (o.put place (some ⟨op.after c, m + 1⟩)).desk place = some ⟨op.after c, m + 1⟩ :=
      Function.update_self ..
    obtain ⟨o', hrun, hr, ho'⟩ := ih hd' hl.2
    rw [Nat.add_assoc, Nat.add_comm 1] at ho'
    exact ⟨o', hrun.head hs, hr, ho'⟩

/-- **A viewer is shown the right path to every item of a cabinet that is built**, by a resolver
that is new and by one that has been in use, and questions of others make no difference to it. -/
theorem breadcrumb_for_viewer {settings : Settings} {epoch : Epoch} {n : Nat} {c : Cabinet}
    (h : Built settings epoch n c) (hn : n < 2 ^ 64 - 1) {item : ItemId} {i : Item}
    (hi : c.item? item = some i) (root : ItemId) (user : Principal) :
    (∃ p, c.RightFor user root item p ∧
      (∀ lifetime extra clock,
        ((Resolver.new lifetime extra).resolve c ⟨item, root, some user⟩ clock).1 = .ok p) ∧
      ∀ lifetime extra o place m, ReflTransGen Office.Step (.opened lifetime extra) o →
        o.desk place = some ⟨c, m⟩ → m < 2 ^ 64 →
          ∀ clock, (o.resolver.resolve c ⟨item, root, some user⟩ clock).1 = .ok p) ∧
    ∀ (r : Resolver) (l : List Call) (clock : Nat),
      ((r.callAll l).resolve c ⟨item, root, some user⟩ clock).1 =
        ((r.callAll (l.filter (·.concerns user))).resolve c ⟨item, root, some user⟩ clock).1 := by
  obtain ⟨p, hp, hright⟩ := (h.sound hn).breadcrumb_rightFor user root ⟨i, hi⟩
  have hanswer : c.answer ⟨item, root, some user⟩ = .ok p := by
    rw [answer, contains, SortedMap.contains_eq_true_iff.mpr ⟨i, hi⟩, if_pos rfl, hp]
  refine ⟨⟨p, hright, fun lifetime extra _ => ?_, fun lifetime extra o place m hrun hd hm _ => ?_⟩,
    fun r l clock => r.resolve_callAll_filter l c clock rfl⟩
  · rw [(Resolver.honest_new lifetime extra c).resolve_fst, hanswer]
  · rw [((Office.Truthful.of_steps hrun).honest hd hm).resolve_fst, hanswer]

/-- A document can be reached from a folder through a sharing area of bob, and on a longer way
through two folders. -/
def Operation.detour : List Operation :=
  [.insert (.bare 1 (.container .folder) []),
    .insert { Item.bare 2 (.container .sharedRoot) [] with owner := .user "bob" },
    .insert (.bare 3 (.container .folder) []), .insert (.bare 4 (.container .folder) []),
    .insert (.bare 5 .document []),
    .add (.ofNat 1) (.ofNat 2) (.bare .null), .add (.ofNat 2) (.ofNat 5) (.bare .null),
    .add (.ofNat 1) (.ofNat 3) (.bare .null), .add (.ofNat 3) (.ofNat 4) (.bare .null),
    .add (.ofNat 4) (.ofNat 5) (.bare .null)]

/-- The cabinet that comes of it. -/
def Cabinet.detoured : Cabinet := afterAll Operation.detour (.empty .standard 0)

/-- Bob is shown the short path, and ann, who asks after him, the longer one. -/
theorem breadcrumb_for_viewer_detour :
    ∃ o, ReflTransGen Office.Step (.opened 60 0) o ∧ o.desk 0 = some ⟨detoured, 10⟩ ∧
      (o.resolver.find? ⟨.ofNat 5, .ofNat 1, some (.user "bob")⟩).map (·.path) =
        some ⟨[.ofNat 1, .ofNat 2, .ofNat 5]⟩ ∧
      (o.resolver.resolve detoured ⟨.ofNat 5, .ofNat 1, some (.user "ann")⟩ 0).1 =
        .ok ⟨[.ofNat 1, .ofNat 3, .ofNat 4, .ofNat 5]⟩ ∧
      detoured.RightFor (.user "ann") (.ofNat 1) (.ofNat 5)
        ⟨[.ofNat 1, .ofNat 3, .ofNat 4, .ofNat 5]⟩ := by
  have hl : AllAllowed Operation.Fresh Operation.detour (.empty .standard 0) := by
    refine ⟨rfl, rfl, rfl, rfl, rfl, trivial, trivial, trivial, trivial, trivial, trivial⟩
  have hcounted : AllAllowed (fun c op => (op.after c).generation = c.generation + 1)
      Operation.detour (.empty .standard 0) := by
    refine ⟨?_, ?_, ?_, ?_, ?_, ?_, ?_, ?_, ?_, ?_, trivial⟩ <;> cbv
  obtain ⟨n, hn, hbuilt⟩ := built_afterAll hl
  have hn : n ≤ 10 := hn
  have hopen : Office.Step (.opened 60 0) ((Office.opened 60 0).enter 0 (.empty .standard 0)) :=
    .construct 0 .standard List.not_mem_nil
  obtain ⟨o, hrun, hr, hd⟩ := Office.exists_performAll
    (o := (Office.opened 60 0).enter 0 (.empty .standard 0)) (Function.update_self ..) hcounted
  have hask : Office.Step o _ := .ask ⟨.ofNat 5, .ofNat 1, some (.user "bob")⟩ 0 hd
  have hrun := (hrun.head hopen).tail hask
  obtain ⟨i, hi⟩ : ∃ i, detoured.item? (.ofNat 5) = some i := ⟨_, by cbv⟩
  obtain ⟨⟨p, hright, hnew, huse⟩, _⟩ :=
    breadcrumb_for_viewer hbuilt (by omega) hi (.ofNat 1) (.user "ann")
  have hp : ((Resolver.new 60 0).resolve detoured
      ⟨.ofNat 5, .ofNat 1, some (.user "ann")⟩ 0).1 =
        .ok ⟨[.ofNat 1, .ofNat 3, .ofNat 4, .ofNat 5]⟩ := by cbv
  cases (hnew 60 0 0).symm.trans hp
  refine ⟨_, hrun, hd, ?_, huse 60 0 _ 0 10 hrun hd (by decide) 0, hright⟩
  rw [hr]
  cbv

end Filing
