import Filing.Document.Cabinet
import Filing.Proofs.Run
import Mathlib

/-!
# What is known of an accepted document

A document that was read and checked makes a cabinet whose lists agree with its edges and which has
no cycle.  Its index was made from the edges, and has as many entries as there are edges, so no two
edges share their ends (`Accepted`).

That is all.  A number or an identifier is read twice, as a key and in the record under it, and
nothing compares the two; nor is the number of the next edge compared with any that is in use.

* `accepted_of_ofDocument`: **the facts**.
* `Accepted.edgeBetween?_eq`: the index leads by the number that an edge bears to what is stored
  there.
-/

namespace Filing

open Cabinet

theorem Json.parse?_ofList (l : List Char) : Json.parse? (.ofList l) = Json.read l := by
  rw [parse?, String.toList_ofList]

namespace Cabinet

variable {c : Cabinet} {text : String} {settings : Settings} {epoch : Epoch}

/-- What is known of a cabinet that was read and checked. -/
structure Accepted (c : Cabinet) : Prop extends Coherent c where
  acyclic : c.Acyclic
  size_eq : c.edges.size = c.index.size
  index_iff : ∀ {key e}, c.index.find? key = some e ↔
    ∃ e' edge, c.edge? e' = some edge ∧ edge.key = key ∧ edge.id = e
  eq_of_key_eq : ∀ {e e' edge edge'}, c.edge? e = some edge → c.edge? e' = some edge' →
    edge.key = edge'.key → e = e'

/-! ## The index of an accepted document -/

theorem size_indexOf_eq_iff {edges : SortedMap EdgeId Edge} :
    (indexOf edges).size = edges.size ↔ (edges.values.map (·.key)).Nodup := by
  have hl : (edges.values.map fun e => (e.key, e.id)).length = edges.size := by
    rw [List.length_map, SortedMap.length_values]
  rw [indexOf, ← hl, SortedMap.size_ofList_eq_iff, List.map_map]
  rfl

theorem size_indexOf_le (edges : SortedMap EdgeId Edge) : (indexOf edges).size ≤ edges.size := by
  refine le_of_le_of_eq (SortedMap.size_ofList_le _) ?_
  rw [List.length_map, SortedMap.length_values]

theorem find?_indexOf {edges : SortedMap EdgeId Edge} (hn : (edges.values.map (·.key)).Nodup)
    {key : Membership} {e : EdgeId} :
    (indexOf edges).find? key = some e ↔
      ∃ e' edge, edges.find? e' = some edge ∧ edge.key = key ∧ edge.id = e := by
  have hn' : ((edges.values.map fun e => (e.key, e.id)).map (·.1)).Nodup := by
    rwa [List.map_map]
  rw [indexOf, SortedMap.find?_ofList hn', List.mem_map]
  constructor
  · rintro ⟨edge, hm, heq⟩
    obtain ⟨e', he⟩ := SortedMap.mem_values_iff.mp hm
    obtain ⟨hk, hid⟩ := Prod.mk.inj heq
    exact ⟨e', edge, he, hk, hid⟩
  · rintro ⟨e', edge, he, rfl, rfl⟩
    exact ⟨edge, SortedMap.mem_values_iff.mpr ⟨e', he⟩, rfl⟩

theorem Indexed.index_eq (h : c.Indexed) : c.index = indexOf c.edges := by
  refine SortedMap.ext fun key => Option.ext fun e => ?_
  rw [h.index_iff, find?_indexOf h.nodup_keys]
  constructor
  · rintro ⟨edge, he, hk⟩
    exact ⟨e, edge, he, hk, h.edge_id he⟩
  · rintro ⟨e', edge, he, hk, hid⟩
    exact ⟨edge, by rw [← hid, h.edge_id he]; exact he, hk⟩

/-! ## Acceptance -/

theorem of_ofJson? {v : Json} (h : ofJson? v settings epoch = some c) :
    c.settings = settings ∧ c.epoch = epoch ∧ c.generation = 0 ∧ c.index = indexOf c.edges := by
  rw [ofJson?] at h
  obtain ⟨r, _, h⟩ := Option.bind_eq_some_iff.mp h
  obtain ⟨items, _, h⟩ := Option.bind_eq_some_iff.mp h
  obtain ⟨edges, _, h⟩ := Option.bind_eq_some_iff.mp h
  obtain ⟨deferred, _, h⟩ := Option.bind_eq_some_iff.mp h
  obtain ⟨nextEdge, _, h⟩ := Option.bind_eq_some_iff.mp h
  cases h
  exact ⟨rfl, rfl, rfl, rfl⟩

/-- **A document is accepted** if it makes a cabinet that passes the check, where one is asked for.
-/
theorem ofDocument_eq_ok_iff :
    ofDocument text settings epoch = .ok c ↔
      (Json.parse? text).bind (ofJson? · settings epoch) = some c ∧
        (settings.verifyOnLoad = true → c.verify = .ok ()) := by
  rw [ofDocument]
  cases (Json.parse? text).bind (ofJson? · settings epoch) with
  | none => simp
  | some c' =>
    cases settings.verifyOnLoad with
    | false => simp
    | true =>
      constructor
      · intro h
        dsimp only at h
        cases hv : c'.verify with
        | error d =>
          rw [hv] at h
          cases h
        | ok =>
          rw [hv] at h
          cases h
          exact ⟨rfl, fun _ => hv⟩
      · rintro ⟨⟨⟩, hv⟩
        simp only [hv rfl, if_true]

theorem of_ofDocument (h : ofDocument text settings epoch = .ok c) :
    c.settings = settings ∧ c.epoch = epoch ∧ c.generation = 0 ∧ c.index = indexOf c.edges := by
  obtain ⟨v, _, hv⟩ := Option.bind_eq_some_iff.mp (ofDocument_eq_ok_iff.mp h).1
  exact of_ofJson? hv

/-- **What is known of an accepted document.** -/
theorem accepted_of_ofDocument (hload : settings.verifyOnLoad = true)
    (h : ofDocument text settings epoch = .ok c) : c.Accepted := by
  have hx : c.index = indexOf c.edges := (of_ofDocument h).2.2.2
  have hv := (ofDocument_eq_ok_iff.mp h).2 hload
  obtain ⟨hsize, hcoherent, hacyclic⟩ := verify_eq_ok_iff.mp hv
  have hn := size_indexOf_eq_iff.mp (hx ▸ hsize)
  refine
    { toCoherent := hcoherent
      acyclic := hacyclic
      size_eq := hsize.symm
      index_iff := ?_
      eq_of_key_eq := SortedMap.nodup_map_values_iff.mp hn }
  intro key e
  rw [hx]
  exact find?_indexOf hn

/-- **The index leads by the number that an edge bears**, to what is stored under it. -/
theorem Accepted.edgeBetween?_eq (h : c.Accepted) {e : EdgeId} {edge : Edge}
    (he : c.edge? e = some edge) : c.edgeBetween? edge.key = c.edge? edge.id := by
  rw [edgeBetween?, h.index_iff.mpr ⟨e, edge, he, rfl, rfl⟩]
  rfl

theorem Accepted.isMember_iff (h : c.Accepted) {p id : ItemId} :
    c.isMember ⟨id, p⟩ = true ↔ c.Holds p id := by
  rw [isMember, SortedMap.contains_eq_true_iff]
  constructor
  · rintro ⟨e, he⟩
    obtain ⟨e', edge, hs, hk, _⟩ := h.index_iff.mp he
    exact ⟨e', edge, hs, congrArg Membership.container hk, congrArg Membership.item hk⟩
  · rintro ⟨e, edge, he, rfl, rfl⟩
    exact ⟨edge.id, h.index_iff.mpr ⟨e, edge, he, rfl, rfl⟩⟩

/-! ## A document with slips -/

/-- A folder with a document in it, and another document.  The number of the next edge is in use,
the edge does not bear the number under which it stands, and the last item not the identifier. -/
def drifted : Cabinet :=
  { empty .standard 0 with
    items := .ofList
      [(.ofNat 1, { Item.bare 1 (.container .folder) [] with childEdges := [⟨1⟩] }),
        (.ofNat 2, { Item.bare 2 .document [] with parentEdges := [⟨1⟩] }),
        (.ofNat 3, Item.bare 4 .document [])]
    edges := .ofList [(⟨1⟩, .make ⟨5⟩ ⟨.ofNat 2, .ofNat 1⟩ .anonymous .start)]
    index := .ofList [(⟨.ofNat 2, .ofNat 1⟩, ⟨5⟩)] }

/-- The document of `drifted`, with records in the form of arrays. -/
def driftedText : String :=
  "[\x7b\"00000000000000000000000000000001\":[\"00000000000000000000000000000001\",\"\",
    [\"anonymous\",null],[\"container\",\"folder\"],false,[],\"1970-01-01T00:00:00Z\",[],[1]],
    \"00000000000000000000000000000002\":[\"00000000000000000000000000000002\",\"\",
    [\"anonymous\",null],[\"document\",null],false,[],\"1970-01-01T00:00:00Z\",[1],[]],
    \"00000000000000000000000000000003\":[\"00000000000000000000000000000004\",\"\",
    [\"anonymous\",null],[\"document\",null],false,[],\"1970-01-01T00:00:00Z\",[],[]]\x7d,
    \x7b\"1\":[5,\"00000000000000000000000000000002\",\"00000000000000000000000000000001\",
    [\"anonymous\",null],\"1970-01-01T00:00:00Z\",false,null]\x7d,[],1]"

set_option maxRecDepth 4000 in
theorem ofDocument_driftedText : ofDocument driftedText .standard 0 = .ok drifted := by
  have hread : (Json.parse? driftedText).bind (ofJson? · .standard 0) = some drifted := by
    rw [driftedText, Json.parse?_ofList]
    decide +kernel
  have hverify : drifted.verify = .ok () := by cbv
  rw [ofDocument, hread]
  dsimp only
  rw [hverify]
  rfl

end Cabinet

end Filing
