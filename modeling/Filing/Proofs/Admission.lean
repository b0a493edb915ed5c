import Filing.Proofs.Inheritance.Descent
import Filing.Proofs.Inheritance.Sharing

/-!
# The answers to an addition

An addition is answered by the first thing that is wrong with it (`Wrong`), by the edge that is
there, or by the edge that it enters (`Admits`).  What is wrong is told without the checks of the
program: the ends of the membership, what is stored, the rule of the caller, and what lies above.
The rule may be any; with one of the built-in policies the addition is the usual one
(`add_eq_addBy`).

* `Sound.on_settle`: **nothing that follows the entry of an edge fails**, and it gives kinds and
  grants to what was added and to what lies below it, and to nothing else.
* `Orderly.on_addBy`: **every addition to an orderly cabinet is answered so**.  Unless it enters an
  edge, the cabinet is left exactly as it was (`Admits.unchanged`); `Entered` says what it is then.
-/

namespace Filing

open Cabinet Relation

variable {c c' : Cabinet} {parent child x : ItemId} {i j : Item} {allows : Item → Item → Bool}
  {refusal : Failure} {a : Addition}

/-! ## Any rule of the caller -/

/-- Checks an addition by a rule of the caller, with the failure that tells of its refusal. -/
def Cabinet.checkAddBy (c : Cabinet) (parent child : ItemId) (allows : Item → Item → Bool)
    (refusal : Failure) : Except Failure Unit := do
  if parent = child then
    throw (.selfParent child)
  let container ← c.container parent
  let member ← c.item child
  if !allows container member then
    throw refusal
  match c.checkCycle parent child with
  | .acyclic => return
  | .wouldCycle => throw (.cycle parent child)
  | .inconsistent => throw (.inconsistent (.unprovable child parent))

/-- Adds `child` to `parent` if a rule of the caller allows it. -/
def addBy (parent child : ItemId) (allows : Item → Item → Bool) (refusal : Failure)
    (a : Addition) : Edit Added := do
  let c ← get
  c.checkAddBy parent child allows refusal
  let (linked, c) ← c.link ⟨child, parent⟩ a.acting a.defer a.now
  set c
  match linked with
  | .existing e => return .alreadyPresent e
  | .created e => a.settle parent child e

/-- **The built-in policies are such rules.** -/
theorem add_eq_addBy (parent child : ItemId) (a : Addition) :
    add parent child a = addBy parent child a.policy.allows (.refused a.policy parent child) a :=
  rfl

namespace Cabinet

/-! ## What can be wrong -/

/-- The first thing that is wrong with an addition. -/
inductive Wrong (c : Cabinet) (parent child : ItemId) (allows : Item → Item → Bool)
    (refusal : Failure) : Failure → Prop
  | self : parent = child → Wrong c parent child allows refusal (.selfParent child)
  | noContainer : parent ≠ child → c.item? parent = none →
      Wrong c parent child allows refusal (.itemNotFound parent)
  | notContainer {i : Item} : parent ≠ child → c.item? parent = some i → i.isContainer = false →
      Wrong c parent child allows refusal (.notContainer parent)
  | noItem {i : Item} : parent ≠ child → c.item? parent = some i → i.isContainer = true →
      c.item? child = none → Wrong c parent child allows refusal (.itemNotFound child)
  | refused {i j : Item} : parent ≠ child → c.item? parent = some i → i.isContainer = true →
      c.item? child = some j → allows i j = false → Wrong c parent child allows refusal refusal
  | above {i j : Item} : parent ≠ child → c.item? parent = some i → i.isContainer = true →
      c.item? child = some j → allows i j = true → ReflTransGen c.Holds child parent →
      Wrong c parent child allows refusal (.cycle parent child)

/-- Nothing is wrong with an addition. -/
structure Right (c : Cabinet) (parent child : ItemId) (allows : Item → Item → Bool) (i j : Item) :
    Prop where
  ne : parent ≠ child
  container : c.item? parent = some i
  isContainer : i.isContainer = true
  member : c.item? child = some j
  allowed : allows i j = true
  not_above : ¬ReflTransGen c.Holds child parent

theorem wrong_or_right (c : Cabinet) (parent child : ItemId) (allows : Item → Item → Bool)
    (refusal : Failure) :
    (∃ x, c.Wrong parent child allows refusal x) ∨ ∃ i j, c.Right parent child allows i j := by
  by_cases hne : parent = child
  · exact .inl ⟨_, .self hne⟩
  cases hp : c.item? parent with
  | none => exact .inl ⟨_, .noContainer hne hp⟩
  | some i =>
    cases hi : i.isContainer with
    | false => exact .inl ⟨_, .notContainer hne hp hi⟩
    | true =>
      cases hc : c.item? child with
      | none => exact .inl ⟨_, .noItem hne hp hi hc⟩
      | some j =>
        cases hallow : allows i j with
        | false => exact .inl ⟨_, .refused hne hp hi hc hallow⟩
        | true =>
          by_cases hup : ReflTransGen c.Holds child parent
          · exact .inl ⟨_, .above hne hp hi hc hallow hup⟩
          · exact .inr ⟨i, j, hne, hp, hi, hc, hallow, hup⟩

theorem container_of_some (hi : c.item? x = some i) (h : i.isContainer = true) :
    c.container x = .ok i := container_eq_ok_iff.mpr ⟨hi, h⟩

theorem Sound.checkAddBy_of_wrong (hs : c.Sound) {x : Failure}
    (h : c.Wrong parent child allows refusal x) :
    c.checkAddBy parent child allows refusal = .error x := by
  rw [checkAddBy]
  cases h with
  | self hp => rw [if_pos hp]; rfl
  | noContainer hne hp =>
    rw [if_neg hne, container, item_of_none hp]
    rfl
  | notContainer hne hp hi =>
    rw [if_neg hne, container, item_of_some hp]
    simp [bind, Except.bind, hi]
  | noItem hne hp hi hc =>
    rw [if_neg hne, container_of_some hp hi, item_of_none hc]
    rfl
  | refused hne hp hi hc hallow =>
    rw [if_neg hne, container_of_some hp hi, item_of_some hc]
    simp [bind, Except.bind, hallow]
    rfl
  | above hne hp hi hc hallow hup =>
    rw [if_neg hne, container_of_some hp hi, item_of_some hc,
      checkCycle_eq_wouldCycle hs.toCoherent hs.acyclic ⟨_, hp⟩ hup]
    simp [bind, Except.bind, hallow]
    rfl

/-- **The check succeeds as it should**, and so it does where anything goes. -/
theorem Right.checkAddBy_ok (h : c.Right parent child allows i j) (hs : c.Sound)
    (refusal : Failure) :
    c.checkAddBy parent child allows refusal = .ok () ∧
      c.checkAdd parent child .permissive = .ok () := by
  have hv : c.checkCycle parent child = .acyclic :=
    (checkCycle_eq_acyclic_iff hs.toCoherent hs.acyclic).mpr ⟨⟨i, h.container⟩, h.not_above⟩
  refine ⟨?_, checkAdd_eq_ok_iff.mpr
    ⟨h.ne, ⟨i, j, h.container, h.isContainer, h.member, rfl⟩, hv⟩⟩
  rw [checkAddBy, if_neg h.ne, container_of_some h.container h.isContainer,
    item_of_some h.member, hv]
  simp [bind, Except.bind, h.allowed]
  rfl

end Cabinet

/-! ## The edit -/

theorem on_addBy_of_error {x : Failure}
    (h : c.checkAddBy parent child allows refusal = .error x) :
    (addBy parent child allows refusal a).on c = (.error x, c) := by
  unfold addBy
  simp only [Edit.on_bind, Edit.on_get, Edit.on_liftM, h]

theorem on_addBy_of_ok (h : c.checkAddBy parent child allows refusal = .ok ())
    (h' : c.checkAdd parent child .permissive = .ok ()) :
    (addBy parent child allows refusal a).on c =
      (add parent child { a with policy := .permissive }).on c := by
  unfold addBy add
  simp only [Edit.on_bind, Edit.on_get, Edit.on_liftM, h, h']
  rfl

/-! ## What follows the entry of an edge -/

/-- **What follows an addition does not fail, and reaches only what lies below.** -/
theorem Propagation.on_onAdd_below (p : Propagation) (hs : c.Sound) (hp : c.item? parent = some i)
    (hc : c.item? child = some j) :
    ∃ c', (p.onAdd parent child).on c = (.ok (), c') ∧ c.Regranted c' ∧
      ∀ x, ¬ReflTransGen c.Holds child x → c'.item? x = c.item? x := by
  have hsubtree : ∃ c', (mergeDown parent child .subtree).on c = (.ok (), c') ∧ c.Regranted c' ∧
      ∀ x, ¬ReflTransGen c.Holds child x → c'.item? x = c.item? x := by
    obtain ⟨c', hon, hr, _, hout⟩ := hs.on_mergeDown_subtree hp hc
    exact ⟨c', hon, hr, hout⟩
  cases p with
  | null => exact ⟨c, rfl, .refl c, fun _ _ => rfl⟩
  | inherit => exact hsubtree
  | notFromContainers => exact hsubtree
  | share =>
    obtain ⟨c', hon, hr, _, hout⟩ := hs.on_mergeDown_oneLevel hp hc
    refine ⟨c', hon, hr, fun x hx => hout x ?_ fun hh => hx (.single hh)⟩
    rintro rfl
    exact hx .refl

/-- **Nothing that follows the entry of an edge fails.**  Some items at or below the one that was
added take the shared variants of their kinds, and then grants change there. -/
theorem Cabinet.Sound.on_settle (hs : c.Sound) (hp : c.item? parent = some i)
    (hc : c.item? child = some j) (a : Addition) (e : EdgeId) :
    ∃ l c', (a.settle parent child e).on c = (.ok (.added e), c') ∧ l.Nodup ∧
      (∀ x ∈ l, ReflTransGen c.Holds child x) ∧ (c.shareAll l).Regranted c' ∧
      ∀ x, ¬ReflTransGen c.Holds child x → c'.item? x = c.item? x := by
  rw [Addition.settle]
  cases a.propagation.convertsKinds with
  | false =>
    obtain ⟨c', hon, hr, hout⟩ := a.propagation.on_onAdd_below hs hp hc
    refine ⟨[], c', ?_, List.nodup_nil, fun _ hm => absurd hm List.not_mem_nil, hr, hout⟩
    show (a.propagation.onAdd parent child >>= fun _ => _).on c = _
    rw [Edit.on_bind_of_ok hon, Edit.on_pure]
  | true =>
    obtain ⟨l, hn, hl, hkinds⟩ := hs.on_convertKinds hp hc
    have hr := retouched_shareAll c l
    obtain ⟨i₁, hp₁, _⟩ := hr.item_after hp
    obtain ⟨j₁, hc₁, _⟩ := hr.item_after hc
    obtain ⟨c', hon, hr', hout⟩ := a.propagation.on_onAdd_below (hr.sound hs) hp₁ hc₁
    have hbelow : (c.shareAll l).Holds = c.Holds := by
      funext p x
      exact propext hr.holds_iff
    rw [hbelow] at hout
    refine ⟨l, c', ?_, hn, fun x hx => ((hl x).mp hx).2, hr', fun x hx => (hout x hx).trans ?_⟩
    · show (convertKinds parent child >>= fun _ => _).on c = _
      rw [Edit.on_bind_of_ok hkinds]
      show (a.propagation.onAdd parent child >>= fun _ => _).on _ = _
      rw [Edit.on_bind_of_ok hon, Edit.on_pure]
    · rw [item?_shareAll, if_neg fun hm => hx ((hl x).mp hm).2]

/-! ## The new edge -/

namespace Cabinet

/-- **What the entry of an edge leaves.**  The edge is stored, indexed and listed under the next
number; items at or below the one that was added may have other grants and kinds, and all else of
every item is as it was; and each change of structure is counted. -/
structure Entered (c : Cabinet) (parent child : ItemId) (a : Addition) (c' : Cabinet) : Prop where
  settings : c'.settings = c.settings
  epoch : c'.epoch = c.epoch
  edges : c'.edges = c.edges.insert c.nextEdge (.make c.nextEdge ⟨child, parent⟩ a.acting a.now)
  index : c'.index = c.index.insert ⟨child, parent⟩ c.nextEdge
  deferred : c'.deferred = if a.defer then c.deferred ++ [c.nextEdge] else c.deferred
  nextEdge : c'.nextEdge.toNat = c.nextEdge.toNat + 1
  missing : ∀ x, c.item? x = none → c'.item? x = none
  item : ∀ x i, c.item? x = some i → ∃ kind access, c'.item? x = some
      { i with
        kind, access
        parentEdges := if x = child then i.parentEdges ++ [c.nextEdge] else i.parentEdges
        childEdges :=
          if x = parent ∧ a.defer = false then i.childEdges ++ [c.nextEdge] else i.childEdges } ∧
    (ReflTransGen c.Holds child x ∨ kind = i.kind ∧ access = i.access)
  generation : ∃ l : List ItemId, l.Nodup ∧ (∀ x, x ∈ l ↔ c'.kind? x ≠ c.kind? x) ∧
    c'.generation = c.generation + 1 + .ofNat l.length

theorem below_with_arc (hn : ¬ReflTransGen c.Holds child parent)
    (h : ReflTransGen (fun p x => c.Holds p x ∨ p = parent ∧ x = child) child x) :
    ReflTransGen c.Holds child x := by
  induction h with
  | refl => exact .refl
  | tail _ hstep ih =>
    rcases hstep with hh | ⟨rfl, _⟩
    · exact ih.tail hh
    · exact absurd ih hn

theorem generation_shared {l : List ItemId} (hn : l.Nodup) (hr : (c.shareAll l).Regranted c') :
    ∃ l' : List ItemId, l'.Nodup ∧ (∀ x, x ∈ l' ↔ c'.kind? x ≠ c.kind? x) ∧
      c'.generation = c.generation + .ofNat l'.length := by
  refine ⟨l.filter c.isConvertible, hn.filter _, fun x => ?_, ?_⟩
  · rw [List.mem_filter, hr.kind? x, kind?, kind?, item?_shareAll, isConvertible]
    by_cases hx : x ∈ l
    · cases hi : c.item? x with
      | none => simp
      | some i => simp [hx, Item.shared]
    · simp [hx]
  · rw [hr.generation, generation_shareAll c hn, List.countP_eq_length_filter]

/-- **An addition that is allowed and new enters its edge**, whatever else it does. -/
theorem Orderly.on_add_entered (h : c.Orderly) (hlt : c.nextEdge.toNat + 1 < 2 ^ 64)
    (hadd : c.checkAdd parent child a.policy = .ok ()) (hh : ¬c.Holds parent child) :
    ∃ c', (add parent child a).on c = (.ok (.added c.nextEdge), c') ∧
      c.Entered parent child a c' := by
  have hn := h.nextEdge_free
  have hi : c.index.find? ⟨child, parent⟩ = none := h.find?_eq_none_iff.mpr hh
  obtain ⟨_, ⟨i, j, hp, _, hc, _⟩, hv⟩ := checkAdd_eq_ok_iff.mp hadd
  have hup := ((checkCycle_eq_acyclic_iff h.toCoherent h.acyclic).mp hv).2
  let c₁ := c.withEdge ⟨child, parent⟩ a.acting a.defer a.now
  have hlisted := item?_withEdge c ⟨child, parent⟩ a.acting a.defer a.now
  have hbelow : ∀ {x}, ReflTransGen c₁.Holds child x → ReflTransGen c.Holds child x := fun hx =>
    below_with_arc hup (ReflTransGen.mono (fun _ _ => (holds_withEdge _ _ _ hn).mp) _ _ hx)
  obtain ⟨l, c', hon, hnodup, hl, hr, hout⟩ :=
    (h.toSound.withEdge a.acting a.defer a.now hn hadd hi).on_settle (i := _) (j := _)
      ((hlisted parent).trans (congrArg _ hp)) ((hlisted child).trans (congrArg _ hc)) a c.nextEdge
  have hr' := (retouched_shareAll c₁ l).trans hr.retouched
  refine ⟨c', (on_add_created hadd hi).trans hon,
    { settings := hr'.settings.trans (settings_withEdge ..)
      epoch := hr'.epoch.trans (epoch_withEdge ..)
      edges := hr'.edges
      index := hr'.index
      deferred := hr'.deferred.trans (deferred_withEdge ..)
      nextEdge := (congrArg EdgeId.toNat hr'.nextEdge).trans (EdgeId.toNat_next hlt)
      missing := fun x hx => hr'.item?_eq_none_iff.mpr ((hlisted x).trans (congrArg _ hx))
      item := fun x k hk => ?item
      generation := ?generation }⟩
  case item =>
    have hk₁ := (hlisted x).trans (congrArg _ hk)
    by_cases hx : ReflTransGen c₁.Holds child x
    · have hshared := item?_shareAll c₁ l x
      by_cases hm : x ∈ l
      · rw [if_pos hm] at hshared
        obtain ⟨access, hk'⟩ := hr.item?_of_some (hshared.trans (congrArg _ hk₁))
        exact ⟨_, access, hk', .inl (hbelow hx)⟩
      · rw [if_neg hm] at hshared
        obtain ⟨access, hk'⟩ := hr.item?_of_some (hshared.trans hk₁)
        exact ⟨_, access, hk', .inl (hbelow hx)⟩
    · exact ⟨_, _, (hout x hx).trans hk₁, .inr ⟨rfl, rfl⟩⟩
  case generation =>
    obtain ⟨l', hn', hl', hg⟩ := generation_shared hnodup hr
    refine ⟨l', hn', fun x => ?_, ?_⟩
    · rw [hl', kind?_withEdge]
    · rw [hg, generation_withEdge]

/-- **How an addition is answered**, and the cabinet that it leaves. -/
inductive Admits (c : Cabinet) (parent child : ItemId) (allows : Item → Item → Bool)
    (refusal : Failure) (a : Addition) : Except Failure Added × Cabinet → Prop
  | wrong {x : Failure} : c.Wrong parent child allows refusal x →
      Admits c parent child allows refusal a (.error x, c)
  | present {i j : Item} {e : EdgeId} {edge : Edge} : c.Right parent child allows i j →
      c.edge? e = some edge → edge.item = child → edge.container = parent →
      Admits c parent child allows refusal a (.ok (.alreadyPresent e), c)
  | entered {i j : Item} {c' : Cabinet} : c.Right parent child allows i j →
      ¬c.Holds parent child → c.Entered parent child a c' →
      Admits c parent child allows refusal a (.ok (.added c.nextEdge), c')

/-- **Every addition is answered so.** -/
theorem Orderly.on_addBy (h : c.Orderly) (hlt : c.nextEdge.toNat + 1 < 2 ^ 64)
    (parent child : ItemId) (allows : Item → Item → Bool) (refusal : Failure) (a : Addition) :
    c.Admits parent child allows refusal a ((addBy parent child allows refusal a).on c) := by
  rcases c.wrong_or_right parent child allows refusal with ⟨x, hx⟩ | ⟨i, j, hright⟩
  · rw [on_addBy_of_error (h.toSound.checkAddBy_of_wrong hx)]
    exact .wrong hx
  · obtain ⟨hcheck, hadd⟩ := hright.checkAddBy_ok h.toSound refusal
    rw [on_addBy_of_ok hcheck hadd]
    by_cases hh : c.Holds parent child
    · obtain ⟨e, edge, he, hcontainer, hitem⟩ := hh
      have hkey : edge.key = ⟨child, parent⟩ := by rw [Edge.key, hitem, hcontainer]
      rw [on_add_present hadd (h.index_iff.mpr ⟨edge, he, hkey⟩)]
      exact .present hright he hitem hcontainer
    · obtain ⟨c', hon, hentered⟩ :=
        h.on_add_entered (a := { a with policy := .permissive }) hlt hadd hh
      rw [hon]
      exact .entered hright hh ⟨hentered.settings, hentered.epoch, hentered.edges, hentered.index,
        hentered.deferred, hentered.nextEdge, hentered.missing, hentered.item, hentered.generation⟩

namespace Admits

variable {r : Except Failure Added × Cabinet}

/-- **An addition that does not enter an edge leaves the cabinet exactly as it was.** -/
theorem unchanged (h : c.Admits parent child allows refusal a r) (hr : ∀ e, r.1 ≠ .ok (.added e)) :
    r.2 = c := by
  cases h with
  | wrong | present => rfl
  | entered => exact absurd rfl (hr _)

theorem of_added (h : c.Admits parent child allows refusal a r) {e : EdgeId}
    (hr : r.1 = .ok (.added e)) : e = c.nextEdge ∧ c.Entered parent child a r.2 := by
  cases h with
  | wrong | present => cases hr
  | entered _ _ hentered =>
    cases hr
    exact ⟨rfl, hentered⟩

end Admits

end Cabinet

/-! ## Runs -/

namespace Request

section Run

variable {settings : Settings} {epoch : Epoch} {l : List Request}

theorem orderly_with_room (hl : AllAllowed Fresh l (.empty settings epoch))
    (hn : linksAll l (.empty settings epoch) < 2 ^ 64 - 2) :
    (afterAll l (.empty settings epoch)).Orderly ∧
      (afterAll l (.empty settings epoch)).nextEdge.toNat + 1 < 2 ^ 64 := by
  obtain ⟨ho, hnext⟩ := orderly_afterAll (orderly_empty settings epoch) hl (linksAll_lt (by omega))
  have hfirst : (empty settings epoch).nextEdge.toNat = 1 := rfl
  exact ⟨ho, by omega⟩

/-- **Every addition is answered by the first thing that is wrong with it, by the edge that is
there, or by the edge that it enters**, in every cabinet that a run from an empty one comes to.
This holds of the built-in policies and of any other rule of the caller. -/
theorem additions_answered (hl : AllAllowed Fresh l (.empty settings epoch))
    (hn : linksAll l (.empty settings epoch) < 2 ^ 64 - 2)
    (hc : afterAll l (.empty settings epoch) = c) (parent child : ItemId) (a : Addition) :
    c.Admits parent child a.policy.allows (.refused a.policy parent child) a
      ((add parent child a).on c) ∧
    ∀ allows refusal, c.Admits parent child allows refusal a
      ((addBy parent child allows refusal a).on c) := by
  obtain ⟨ho, hlt⟩ := orderly_with_room hl hn
  rw [hc] at ho hlt
  refine ⟨?_, fun allows refusal => ho.on_addBy hlt parent child allows refusal a⟩
  rw [add_eq_addBy]
  exact ho.on_addBy hlt parent child _ _ a

/-- A folder of a sharing area holds a folder; there is a document beside. -/
def shelved : List Request :=
  [.insert (.bare 1 (.container .sharedFolder) []), .insert (.bare 2 (.container .folder) []),
    .insert (.bare 3 .document []), .add (.ofNat 1) (.ofNat 2) (.bare .share)].map operation

/-- The outer folder is not put into the inner one, nor the inner one into the outer a second time;
the document is, and a rule that allows nothing refuses it. -/
theorem additions_answered_shelved : ∃ c, afterAll shelved (.empty .standard 0) = c ∧
    (add (.ofNat 2) (.ofNat 1) (.bare .inherit)).on c =
      (.error (.cycle (.ofNat 2) (.ofNat 1)), c) ∧
    (add (.ofNat 1) (.ofNat 2) (.bare .inherit)).on c = (.ok (.alreadyPresent ⟨1⟩), c) ∧
    (addBy (.ofNat 2) (.ofNat 3) (fun _ _ => false) .badDocument (.bare .inherit)).on c =
      (.error .badDocument, c) ∧
    ∃ c', (add (.ofNat 2) (.ofNat 3) (.bare .inherit)).on c = (.ok (.added ⟨2⟩), c') ∧
      c.Entered (.ofNat 2) (.ofNat 3) (.bare .inherit) c' := by
  have hl : AllAllowed Fresh shelved (.empty .standard 0) := ⟨rfl, rfl, rfl, trivial, trivial⟩
  have hn : linksAll shelved (.empty .standard 0) ≤ 4 := linksAll_le_length ..
  have hanswers := fun parent child =>
    additions_answered hl (by omega) rfl parent child (.bare .inherit)
  refine ⟨_, rfl, ?_, ?_, ?_, ?_⟩
  · have hfst : ((add (.ofNat 2) (.ofNat 1) (.bare .inherit)).on
        (afterAll shelved (.empty .standard 0))).1 = .error (.cycle (.ofNat 2) (.ofNat 1)) := by cbv
    exact Prod.ext hfst ((hanswers (.ofNat 2) (.ofNat 1)).1.unchanged fun e => by simp [hfst])
  · have hfst : ((add (.ofNat 1) (.ofNat 2) (.bare .inherit)).on
        (afterAll shelved (.empty .standard 0))).1 = .ok (.alreadyPresent ⟨1⟩) := by cbv
    exact Prod.ext hfst ((hanswers (.ofNat 1) (.ofNat 2)).1.unchanged fun e => by simp [hfst])
  · have hfst : ((addBy (.ofNat 2) (.ofNat 3) (fun _ _ => false) .badDocument (.bare .inherit)).on
        (afterAll shelved (.empty .standard 0))).1 = .error .badDocument := by cbv
    have hrefused := (hanswers (.ofNat 2) (.ofNat 3)).2 (fun _ _ => false) .badDocument
    exact Prod.ext hfst (hrefused.unchanged fun e => by simp [hfst])
  · have hfst : ((add (.ofNat 2) (.ofNat 3) (.bare .inherit)).on
        (afterAll shelved (.empty .standard 0))).1 = .ok (.added ⟨2⟩) := by cbv
    exact ⟨_, Prod.ext hfst rfl, ((hanswers (.ofNat 2) (.ofNat 3)).1.of_added hfst).2⟩

end Run

end Request

end Filing
