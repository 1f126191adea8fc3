/-
State trees and JSON values.

A JSON value is made into a tree, a tree is read back as a JSON value, compared with one or
written out, and each of these goes down the tree by itself.  What they have to agree on is
the content: converting there and back changes nothing, so that it does not matter on which
side a comparison is made or a text is written.

Each recursion is set against `Node.toJson`, by induction on the tree.  Comparing two trees
is comparing one of them with the content of the other, and that is comparing the contents:
the values of an object are looked up by name, and a name finds the content of what it
finds in the tree.  So no two comparisons have to be set against each other.
-/
import Reducer.Node.Printer
import Reducer.Proofs.Content
import Reducer.Proofs.Equality

namespace Reducer

namespace Json

/-- Induction over a value: a container has the property once all its children have it. -/
@[elab_as_elim]
theorem valueInduction {motive : Json → Prop} (null : motive .null)
    (bool : ∀ value, motive (.bool value)) (num : ∀ value, motive (.num value))
    (str : ∀ value, motive (.str value))
    (arr : ∀ items, (∀ item ∈ items, motive item) → motive (.arr items))
    (obj : ∀ fields, (∀ field ∈ fields, motive field.2) → motive (.obj fields))
    (value : Json) : motive value :=
  @Json.rec motive (fun items => ∀ item ∈ items, motive item)
    (fun fields => ∀ field ∈ fields, motive field.2) (fun field => motive field.2)
    null bool num str arr obj (by simp)
    (fun _ _ hfirst hrest => List.forall_mem_cons.mpr ⟨hfirst, hrest⟩)
    (by simp) (fun _ _ hfirst hrest => List.forall_mem_cons.mpr ⟨hfirst, hrest⟩)
    (fun _ _ h => h) value

end Json

/-! ### There and back -/

namespace Draft

theorem itemsToJson_ofItems {items : List Json} (h : ∀ item ∈ items, (ofJson item).toJson = item) :
    itemsToJson (ofItems items) = items := by
  induction items with
  | nil => rfl
  | cons item rest ih =>
      obtain ⟨hfirst, hrest⟩ := List.forall_mem_cons.mp h
      rw [ofItems, itemsToJson, hfirst, ih hrest]

theorem fieldsToJson_ofFields {fields : List (String × Json)}
    (h : ∀ field ∈ fields, (ofJson field.2).toJson = field.2) :
    fieldsToJson (ofFields fields) = fields := by
  induction fields with
  | nil => rfl
  | cons field rest ih =>
      obtain ⟨hfirst, hrest⟩ := List.forall_mem_cons.mp h
      rw [ofFields, fieldsToJson, hfirst, ih hrest]

/-- The draft of a value has the value as its content. -/
theorem toJson_ofJson (value : Json) : (ofJson value).toJson = value := by
  induction value using Json.valueInduction with
  | arr items ih => rw [ofJson, toJson, itemsToJson_ofItems ih]
  | obj fields ih => rw [ofJson, toJson, fieldsToJson_ofFields ih]
  | _ => rfl

end Draft

namespace Node

/-- **A value that is made into a tree can be read back.** -/
theorem toJson_ofJson (value : Json) (next : Label) : (ofJson value next).1.toJson = value := by
  rw [ofJson, Draft.toJson_build, Draft.toJson_ofJson]

/-! ### Comparing -/

theorem eqvJsonItems_eq {items : List Node}
    (h : ∀ item ∈ items, ∀ value, item.eqvJson value = item.toJson.eqv value)
    (values : List Json) :
    eqvJsonItems items values = Json.eqvItems (itemsToJson items) values := by
  induction items generalizing values with
  | nil => cases values <;> rfl
  | cons item rest ih =>
      obtain ⟨hfirst, hrest⟩ := List.forall_mem_cons.mp h
      cases values with
      | nil => rfl
      | cons value others => rw [eqvJsonItems, itemsToJson, Json.eqvItems, hfirst, ih hrest]

theorem eqvJsonFields_eq {fields : List (String × Node)}
    (h : ∀ field ∈ fields, ∀ value, field.2.eqvJson value = field.2.toJson.eqv value)
    (values : List (String × Json)) :
    eqvJsonFields fields values = Json.eqvFields (fieldsToJson fields) values := by
  induction fields with
  | nil => rfl
  | cons field rest ih =>
      obtain ⟨hfirst, hrest⟩ := List.forall_mem_cons.mp h
      rw [eqvJsonFields, fieldsToJson, Json.eqvFields, ih hrest]
      cases Table.get? values field.1 with
      | none => rfl
      | some value => dsimp only; rw [hfirst]

/-- **Comparing a tree with a value is comparing its content with the value.** -/
theorem eqvJson_eq (node : Node) : ∀ value, node.eqvJson value = node.toJson.eqv value := by
  induction node using treeInduction with
  | scalar node hnode =>
      intro value
      cases node with
      | arr label items => cases hnode
      | obj label fields => cases hnode
      | _ => cases value <;> rfl
  | arr label items ih =>
      intro value
      cases value with
      | arr values => exact eqvJsonItems_eq ih values
      | _ => rfl
  | obj label fields ih =>
      intro value
      cases value with
      | obj values =>
          have hlength : (fieldsToJson fields).length = fields.length := by
            rw [fieldsToJson_eq, List.length_map]
          rw [eqvJson, toJson, Json.eqv, eqvJsonFields_eq ih, hlength]
      | _ => rfl

theorem eqvItems_eq {items : List Node}
    (h : ∀ item ∈ items, ∀ other : Node, item.eqv other = item.eqvJson other.toJson)
    (others : List Node) : eqvItems items others = eqvJsonItems items (itemsToJson others) := by
  induction items generalizing others with
  | nil => cases others <;> rfl
  | cons item rest ih =>
      obtain ⟨hfirst, hrest⟩ := List.forall_mem_cons.mp h
      cases others with
      | nil => rfl
      | cons other others => rw [eqvItems, itemsToJson, eqvJsonItems, hfirst, ih hrest]

theorem eqvFields_eq {fields : List (String × Node)}
    (h : ∀ field ∈ fields, ∀ other : Node, field.2.eqv other = field.2.eqvJson other.toJson)
    (others : Table Node) :
    eqvFields fields others = eqvJsonFields fields (Table.mapValues toJson others) := by
  induction fields with
  | nil => rfl
  | cons field rest ih =>
      obtain ⟨hfirst, hrest⟩ := List.forall_mem_cons.mp h
      rw [eqvFields, eqvJsonFields, ih hrest, Table.get?_mapValues]
      cases Table.get? others field.1 with
      | none => rfl
      | some other => dsimp only [Option.map]; rw [hfirst]

/-- **Comparing two trees is comparing the one with the content of the other.** -/
theorem eqv_eq_eqvJson (node : Node) : ∀ other, node.eqv other = node.eqvJson other.toJson := by
  induction node using treeInduction with
  | scalar node hnode =>
      intro other
      cases node with
      | arr label items => cases hnode
      | obj label fields => cases hnode
      | _ => cases other <;> rfl
  | arr label items ih =>
      intro other
      cases other with
      | arr made others => exact eqvItems_eq ih others
      | _ => rfl
  | obj label fields ih =>
      intro other
      cases other with
      | obj made others =>
          rw [toJson_obj, eqv, eqvJson, eqvFields_eq ih, Table.mapValues, List.length_map]
      | _ => rfl

/-! ### Writing -/

theorem writeItems_eq {items : List Node}
    (h : ∀ item ∈ items, ∀ rest, item.write rest = item.toJson.write rest) (isFirst : Bool)
    (rest : List Char) :
    writeItems isFirst items rest = Json.writeItems isFirst (itemsToJson items) rest := by
  induction items generalizing isFirst with
  | nil => rfl
  | cons item more ih =>
      obtain ⟨hfirst, hmore⟩ := List.forall_mem_cons.mp h
      rw [writeItems, itemsToJson, Json.writeItems, hfirst, ih hmore]

theorem writeFields_eq {fields : List (String × Node)}
    (h : ∀ field ∈ fields, ∀ rest, field.2.write rest = field.2.toJson.write rest)
    (isFirst : Bool) (rest : List Char) :
    writeFields isFirst fields rest = Json.writeFields isFirst (fieldsToJson fields) rest := by
  induction fields generalizing isFirst with
  | nil => rfl
  | cons field more ih =>
      obtain ⟨hfirst, hmore⟩ := List.forall_mem_cons.mp h
      rw [writeFields, fieldsToJson, Json.writeFields, hfirst, ih hmore]

theorem write_eq (node : Node) : ∀ rest, node.write rest = node.toJson.write rest := by
  induction node using treeInduction with
  | scalar node hnode =>
      intro rest
      cases node with
      | arr label items => cases hnode
      | obj label fields => cases hnode
      | _ => rfl
  | arr label items ih =>
      intro rest
      show '[' :: writeItems true items (']' :: rest) =
        '[' :: Json.writeItems true (itemsToJson items) (']' :: rest)
      rw [writeItems_eq ih]
  | obj label fields ih =>
      intro rest
      show '{' :: writeFields true fields ('}' :: rest) =
        '{' :: Json.writeFields true (fieldsToJson fields) ('}' :: rest)
      rw [writeFields_eq ih]

/-- **The text of a tree is the text of its content.** -/
theorem text_eq (node : Node) : node.text = node.toJson.text := by
  rw [text, write_eq, Json.text]

/-! ### All at once -/

/--
**Trees and JSON values can be converted and compared either way.**  A JSON value that is made
into a tree is read back as it was, and a tree that is read and made again is equal to what it
was, with its keys in their order.  Whether a tree is compared with a JSON value as it stands,
with the tree of the value, or by its content, the answer is the same.  And the text of a tree
is the compact text of its content.
-/
theorem conversions_agree {node : Node} (hnode : node.Distinct) (value : Json) (next : Label) :
    (ofJson value next).1.toJson = value ∧
    ((ofJson node.toJson next).1.toJson = node.toJson ∧
      (ofJson node.toJson next).1.eqv node = true) ∧
    (node.eqv (ofJson value next).1 = node.eqvJson value ∧
      node.toJson.eqv value = node.eqvJson value) ∧
    node.text = node.toJson.text := by
  have hback := toJson_ofJson node.toJson next
  have hmade : (ofJson node.toJson next).1.Distinct :=
    (akin_of_toJson_eq hback.symm).distinct hnode
  refine ⟨toJson_ofJson value next, ⟨hback, eqv_of_toJson_eq hmade hnode hback⟩, ⟨?_, ?_⟩,
    text_eq node⟩
  · rw [eqv_eq_eqvJson, toJson_ofJson]
  · exact (eqvJson_eq node value).symm

/-- An object with an array and another object in it. -/
def nested : Node :=
  .obj 0 [("b", .arr 1 [.num (.int 1), .null, .bool true]), ("a", .obj 2 [("c", .str "x")])]

/-- The same content with the keys the other way round. -/
def turned : Json :=
  .obj [("a", .obj [("c", .str "x")]), ("b", .arr [.num (.int 1), .null, .bool true])]

/-- The two are equal whichever way they are compared, though they are not written alike. -/
theorem conversions_agree_nested :
    nested.Distinct ∧ (ofJson turned 3).1.toJson = turned ∧
      (ofJson nested.toJson 3).1.eqv nested = true ∧
      nested.eqvJson turned = true ∧ nested.eqv (ofJson turned 3).1 = true ∧
      nested.toJson.eqv turned = true ∧
      nested.text = "\x7b\"b\":[1,null,true],\"a\":\x7b\"c\":\"x\"\x7d\x7d" ∧
      nested.toJson.text = nested.text := by
  have hnested : nested.Distinct := by
    simp [nested, Distinct, DistinctItems, DistinctFields, Table.Distinct, Table.keys]
  have hequal : nested.eqvJson turned = true := by decide
  obtain ⟨hread, ⟨-, hagain⟩, ⟨htree, hcontent⟩, htext⟩ := conversions_agree hnested turned 3
  exact ⟨hnested, hread, hagain, hequal, htree.trans hequal, hcontent.trans hequal, by decide,
    htext.symm⟩

end Node

end Reducer
