import Mathlib.Algebra.GroupWithZero.Nat
import Filing.Document.Item
import Filing.Proofs.Json.Record
import Filing.Proofs.Time.Timestamp

/-!
# Written items and edges are read back

For each kind of thing that a document holds, from an identifier up to an item: what is written is
writable JSON, and reading it gives the thing back.  A field of a record that may be left out is
left out only where the reader puts the same thing in.

* `ItemId.parse?_text`: an identifier is read from its hyphenated form.
* `Item.ofJson?_toJson`, `Edge.ofJson?_toJson`: **the records**.
-/

namespace Filing

open Json (Writable)

/-! ## Identifiers -/

namespace ItemId

theorem unhyphenate_hyphenate {ns : List Nat} {cs : List Char} (h : cs.length = ns.sum) :
    unhyphenate ns (hyphenate ns cs) = some cs := by
  induction ns generalizing cs with
  | nil =>
    rw [List.length_eq_zero_iff.mp h]
    rfl
  | cons n ns ih =>
    cases ns with
    | nil => exact if_pos (h.trans (Nat.add_zero n))
    | cons m ns =>
      rw [List.sum_cons] at h
      have htake : (cs.take n).length = n := by
        rw [List.length_take]
        omega
      have hdrop : (cs.drop n).length = (m :: ns).sum := by
        rw [List.length_drop]
        omega
      rw [hyphenate, unhyphenate, List.drop_left' htake, List.take_left' htake]
      · refine (congrArg (Option.map _) (ih hdrop)).trans ?_
        rw [Option.map_some, List.take_append_drop]
      · simp
      · simp

theorem length_hyphenate {ns : List Nat} {cs : List Char} (h : cs.length = ns.sum) :
    (hyphenate ns cs).length = cs.length + (ns.length - 1) := by
  induction ns generalizing cs with
  | nil => rfl
  | cons n ns ih =>
    cases ns with
    | nil => rfl
    | cons m ns =>
      rw [List.sum_cons] at h
      have hdrop : (cs.drop n).length = (m :: ns).sum := by
        rw [List.length_drop]
        omega
      rw [hyphenate]
      · simp only [List.length_append, List.length_cons, ih hdrop, List.length_take,
          List.length_drop]
        omega
      · simp

theorem parse?_text (id : ItemId) : parse? id.text = some id := by
  have hlen : id.digits.length = groups.sum := Hex.length_write 32 _
  have hread : ofGroups? (hyphenate groups id.digits) = some id := by
    rw [ofGroups?, unhyphenate_hyphenate hlen, Option.bind_some, ofDigits?,
      if_pos (show id.digits.length = 32 from hlen), digits,
      Hex.read_write, Option.map_some, Nat.mod_eq_of_lt (show id.toNat < _ from id.bits.isLt)]
    exact congrArg (fun b => some (ItemId.mk b))
      ((BitVec.ofNat_toNat 128 id.bits).trans (BitVec.setWidth_eq id.bits))
  have h36 : (hyphenate groups id.digits).length = 36 := by
    rw [length_hyphenate hlen, hlen]
    rfl
  rw [parse?, text, String.toList_ofList]
  simp only [h36]
  exact hread

@[simp] theorem ofJson?_toJson (id : ItemId) : ofJson? id.toJson = some id := by
  rw [ofJson?, toJson, Json.text?_ofString, Option.bind_some, parse?_text]

theorem writable (id : ItemId) : Writable id.toJson := Json.writable_ofString _

end ItemId

/-! ## Numbers and instants -/

namespace EdgeId

@[simp] theorem ofJson?_toJson (e : EdgeId) : ofJson? e.toJson = some e := by
  rw [ofJson?, toJson, Json.ofNat, Json.uint64?]
  exact congrArg (Option.map EdgeId.mk) (Json.word?_write e.value)

theorem writable (e : EdgeId) : Writable e.toJson := Json.writable_ofNat _

@[simp] theorem listOfJson?_listToJson (l : List EdgeId) : listOfJson? (listToJson l) = some l :=
  mapM_map_eq_some fun e _ => ofJson?_toJson e

theorem writable_list (l : List EdgeId) : Writable (listToJson l) := Json.writable_map writable l

end EdgeId

namespace Timestamp

@[simp] theorem ofJson?_toJson (t : Timestamp) : ofJson? t.toJson = some t := by
  rw [ofJson?, toJson, Json.text?_ofString, Option.bind_some, parse?_text]

theorem writable (t : Timestamp) : Writable t.toJson := Json.writable_ofString _

end Timestamp

/-! ## Principals and grants -/

namespace Principal

@[simp] theorem ofJson?_toJson (p : Principal) : ofJson? p.toJson = some p := by
  cases p with
  | anonymous => rw [ofJson?, toJson, Json.tagged?_ofTag (by decide)]; rfl
  | user n | group n | role n =>
    rw [ofJson?, toJson, Json.tagged?_ofContent (by decide)]
    exact congrArg (Option.map _) (Json.text?_ofString n)

theorem writable (p : Principal) : Writable p.toJson := by
  cases p <;> exact Json.writable_ofMembers (by simp [Json.writable_ofString])

end Principal

namespace Grant

@[simp] theorem ofJson?_toJson (g : Grant) : ofJson? g.toJson = some g := by
  rw [ofJson?, toJson, Json.record?_ofMembers (by simp [fields]) (by simp)]
  simp [Record.required, Record.find?, List.lookup_cons, Permission.ofJson?, Permission.toJson]

theorem writable (g : Grant) : Writable g.toJson :=
  Json.writable_ofMembers (by simp [Principal.writable, Permission.toJson, Json.writable_ofString])

end Grant

namespace AccessList

@[simp] theorem ofJson?_toJson (a : AccessList) : ofJson? (toJson a) = some a := by
  rw [ofJson?, toJson, Json.array?]
  simp only [Option.bind_eq_bind, Option.bind_some,
    mapM_map_eq_some fun g _ => Grant.ofJson?_toJson g]
  exact congrArg some (SortedSet.ofList_toList a)

theorem writable (a : AccessList) : Writable (toJson a) := Json.writable_map Grant.writable _

end AccessList

/-! ## Items and edges -/

namespace ItemKind

@[simp] theorem ofJson?_toJson (k : ItemKind) : ofJson? k.toJson = some k := by
  cases k with
  | document => rw [ofJson?, toJson, Json.tagged?_ofTag (by decide)]; rfl
  | container k =>
    rw [ofJson?, toJson, Json.tagged?_ofContent (by decide)]
    simp [ContainerKind.ofJson?, ContainerKind.toJson, Json.word, Json.ofString,
      Quoted.text?_ofString, ContainerKind.ofName?_name]

theorem writable (k : ItemKind) : Writable k.toJson := by
  cases k <;>
    exact Json.writable_ofMembers (by simp [ContainerKind.toJson, Json.writable_ofString])

end ItemKind

namespace Item

@[simp] theorem ofJson?_toJson (i : Item) : ofJson? i.toJson = some i := by
  rw [ofJson?, toJson, Json.record?_ofMembers]
  · cases h : i.childEdges.isEmpty with
    | false =>
      simp [Record.required, Record.withDefault, Record.find?, List.lookup_cons, Json.bool?]
    | true =>
      simp [Record.required, Record.withDefault, Record.find?, List.lookup_cons, Json.bool?,
        ← List.isEmpty_iff.mp h]
  · cases i.childEdges.isEmpty <;> simp [fields]
  · cases i.childEdges.isEmpty <;> simp

theorem writable (i : Item) : Writable i.toJson := by
  refine Json.writable_ofMembers ?_
  cases i.childEdges.isEmpty <;>
    simp [ItemId.writable, Json.writable_ofString, Principal.writable, ItemKind.writable,
      AccessList.writable, Timestamp.writable, EdgeId.writable_list, Writable.bool]

end Item

namespace Edge

@[simp] theorem ofJson?_toJson (e : Edge) : ofJson? e.toJson = some e := by
  rw [ofJson?, toJson, Json.record?_ofMembers (by simp [fields]) (by simp)]
  obtain ⟨id, item, container, owner, createdAt, deleted, _ | t⟩ := e
  · simp [Record.required, Record.nullable, Record.find?, List.lookup_cons, Json.bool?]
  · have hstring : t.toJson = .string (.ofString t.text) := rfl
    have ht := t.ofJson?_toJson
    rw [hstring] at ht
    simp [Record.required, Record.nullable, Record.find?, List.lookup_cons, Json.bool?, hstring, ht]

theorem writable (e : Edge) : Writable e.toJson := by
  refine Json.writable_ofMembers ?_
  cases e.deletedAt <;>
    simp [EdgeId.writable, ItemId.writable, Principal.writable, Timestamp.writable, Writable.bool,
      Writable.null]

end Edge

end Filing
