import Filing.Proofs.Document.Acceptance
import Filing.Proofs.Document.Parts
import Filing.Session

/-!
# Documents are read back

A document holds everything of a cabinet but the index, which is made anew, and the settings.  So a
cabinet comes back from its document as it was, provided that its index is the one that belongs to
its edges.  This is so of every cabinet that was built, and of every one that was read from any
document, in order or not.

* `ofJson?_toJson`: every field is read back.
* `ofDocument_document`: whether the document is accepted is up to the settings and the check.
* `document_roundTrip`: **the round trip**, with what it means for the store.
-/

namespace Filing

open Json (Writable)

namespace Cabinet

variable {c : Cabinet} {settings : Settings} {epoch : Epoch}

/-! ## Values -/

theorem itemsOfJson?_toJson (items : SortedMap ItemId Item) :
    itemsOfJson? (.ofMembers (items.entries.map fun e => (e.1.text, e.2.toJson))) = some items := by
  rw [Json.ofMembers, itemsOfJson?, List.map_map, mapM_map_eq_some]
  · exact congrArg some items.ofList_entries
  · intro e _
    simp only [Function.comp_apply, Quoted.text?_ofString, Option.bind_eq_bind, Option.bind_some,
      ItemId.parse?_text, Item.ofJson?_toJson]
    rfl

theorem edgesOfJson?_toJson (edges : SortedMap EdgeId Edge) :
    edgesOfJson? (.object (edges.entries.map fun e => (⟨Decimal.write e.1.toNat⟩, e.2.toJson))) =
      some edges := by
  rw [edgesOfJson?, mapM_map_eq_some]
  · exact congrArg some edges.ofList_entries
  · intro e _
    have hkey : Json.word? (Decimal.write e.1.toNat) = some e.1.value := Json.word?_write e.1.value
    simp only [hkey, Option.bind_eq_bind, Option.bind_some, Edge.ofJson?_toJson]
    rfl

/-- **Every field is read back**, and the index is made from the edges. -/
theorem ofJson?_toJson (c : Cabinet) (settings : Settings) (epoch : Epoch) :
    ofJson? c.toJson settings epoch =
      some { c with settings, epoch, index := indexOf c.edges, generation := 0 } := by
  rw [ofJson?, toJson, Json.record?_ofMembers (by simp [fields]) (by simp)]
  simp [Record.required, Record.withDefault, Record.find?, List.lookup_cons, itemsOfJson?_toJson,
    edgesOfJson?_toJson]

theorem writable_toJson (c : Cabinet) : Writable c.toJson := by
  refine Json.writable_ofMembers ?_
  simp only [List.forall_mem_cons, List.not_mem_nil, false_implies, implies_true, and_true]
  refine ⟨Json.writable_ofMembers fun m hm => ?_, .object (fun m hm => ?_) (fun m hm => ?_),
    EdgeId.writable_list _, EdgeId.writable _⟩
  · obtain ⟨e, _, rfl⟩ := List.mem_map.mp hm
    exact e.2.writable
  · obtain ⟨e, _, rfl⟩ := List.mem_map.mp hm
    exact Json.steady_write _
  · obtain ⟨e, _, rfl⟩ := List.mem_map.mp hm
    exact e.2.writable

theorem parse?_document (c : Cabinet) : Json.parse? c.document = some c.toJson :=
  Json.parse?_compress c.writable_toJson

/-! ## Documents -/

/-- **A cabinet with the index of its edges comes back from its document** exactly if it passes the
check or none is asked for. -/
theorem ofDocument_document (hx : c.index = indexOf c.edges) {c' : Cabinet} :
    ofDocument c.document settings epoch = .ok c' ↔
      c' = { c with settings, epoch, generation := 0 } ∧
        (settings.verifyOnLoad = false ∨ c.verify = .ok ()) := by
  rw [ofDocument_eq_ok_iff, parse?_document, Option.bind_some, ofJson?_toJson, ← hx,
    Option.some.injEq, eq_comm]
  refine and_congr_right fun h => ?_
  -- the check reads neither the settings nor the epoch nor the generation
  have hv : c'.verify = c.verify := by rw [h]; rfl
  rw [hv]
  cases settings.verifyOnLoad <;> simp

/-- **The round trip.**  A cabinet with the index of its edges can be read from its document exactly
if it passes the check or none is asked for; then it is as it was, apart from the settings, the
epoch and the generation, and its document is the same.  Every cabinet that was read has the index
of its edges, and so has every one that was built, which a store therefore gives back. -/
theorem document_roundTrip :
    (∀ c : Cabinet, c.index = indexOf c.edges → ∀ settings epoch,
      ((∃ c', ofDocument c.document settings epoch = .ok c') ↔
        settings.verifyOnLoad = false ∨ c.verify = .ok ()) ∧
      ∀ c', ofDocument c.document settings epoch = .ok c' →
        c' = { c with settings, epoch, generation := 0 } ∧ c'.document = c.document) ∧
    (∀ text settings epoch c, ofDocument text settings epoch = .ok c →
      c.index = indexOf c.edges) ∧
    ∀ settings epoch n c, Built settings epoch n c → n < 2 ^ 64 - 1 →
      c.index = indexOf c.edges ∧ ∀ (s : Session) epoch',
        (s.withCabinet c).commit.store.load epoch' =
          .ok (some { c with settings := s.store.settings, epoch := epoch', generation := 0 }) := by
  refine ⟨fun c hx settings epoch => ⟨?_, fun c' h => ?_⟩, fun _ _ _ c h => (of_ofDocument h).2.2.2,
    fun settings epoch n c h hn => ?_⟩
  · constructor
    · rintro ⟨c', h⟩
      exact ((ofDocument_document hx).mp h).2
    · intro h
      exact ⟨_, (ofDocument_document hx).mpr ⟨rfl, h⟩⟩
  · obtain ⟨rfl, _⟩ := (ofDocument_document hx).mp h
    exact ⟨rfl, rfl⟩
  · have hs := h.sound hn
    have hx := hs.toIndexed.index_eq
    refine ⟨hx, fun s epoch' => ?_⟩
    have hload : ofDocument c.document s.store.settings epoch' = .ok _ :=
      (ofDocument_document hx).mpr ⟨rfl, .inr hs.verify⟩
    show (ofDocument c.document s.store.settings epoch').map some = _
    rw [hload]
    rfl

theorem document_roundTrip_filed :
    ∃ s : Session, Session.begin .standard .standard none = .ok s ∧
      (s.withCabinet (filed [])).commit.store.load 7 =
        .ok (some { filed [] with settings := .standard, epoch := 7, generation := 0 }) ∧
      ∀ c', ofDocument (filed []).document .standard 7 = .ok c' →
        c'.document = (filed []).document := by
  have hl : AllAllowed Operation.Fresh (Operation.filing []) (.empty .standard 0) :=
    ⟨rfl, rfl, trivial, trivial⟩
  obtain ⟨n, hn, h⟩ := built_afterAll hl
  have hn : n ≤ 3 := hn
  obtain ⟨hx, hload⟩ := document_roundTrip.2.2 _ _ n _ h (by omega)
  exact ⟨_, rfl, hload _ 7, fun c' hc => ((document_roundTrip.1 _ hx .standard 7).2 c' hc).2⟩

end Cabinet

end Filing
