import DocHistory.Graph.Wire
import DocHistory.Proofs.VersionWire

/-! Merges read back from their serialized form. A null among the properties is a value; one in a
conflict stands where a deletion would. -/
namespace DocHistory

theorem Write.wireRead {w : Write} (solid : w.value ≠ some .null) :
    Write.ofWire w.toWire = .ok w := by
  have value := writeRead w.value
  rw [forgetNullSame.2 solid] at value
  have parts : [("revision", w.revision.toWire), ("value", writeToWire w.value)].foldlM
      Parts.read {} = Except.ok ⟨some w.revision, some w.value⟩ := by
    simp only [List.foldlM_cons, List.foldlM_nil, Parts.read, Wire.fill, Revision.wireRead, value]
    rfl
  simp only [ofWire, toWire, Wire.fields, bind, Except.bind, parts]
  rfl

namespace Merge

def ListsNull (m : Merge) : Prop :=
  ∃ path ws, m.conflicts.get? path = some ws ∧ ∃ w ∈ ws, w.value = some .null

structure Named (m : Merge) : Prop where
  properties : ∀ e ∈ m.properties.entries, e.1.Named
  revisions : ∀ e ∈ m.revisions.entries, e.1.Named
  conflicts : ∀ e ∈ m.conflicts.entries, e.1.Named

theorem mapRead {α : Type} {value : Wire → Reading α} {wire : α → Wire} {m : SortedMap Path α}
    (named : ∀ e ∈ m.entries, e.1.Named) (values : ∀ e ∈ m.entries, value (wire e.2) = .ok e.2) :
    mapOfWire value (mapToWire wire m) = .ok m := by
  refine (Wire.entriesRead wire id (fun e listed => Path.keyRead (named e listed)) values).trans ?_
  refine congrArg Except.ok (SortedMap.extGet fun path => ?_)
  rw [SortedMap.mapGet, Option.map_id_fun, id]

theorem wireRead {m : Merge} (named : m.Named) (solid : ¬ m.ListsNull) :
    ofWire m.toWire = .ok m := by
  have heads : ((Wire.list (m.heads.toList.map Revision.toWire)).asList Revision.ofWire).map
      SortedSet.ofList = .ok m.heads := by
    rw [Wire.itemsRead fun r _ => r.wireRead, List.map_id']
    exact congrArg Except.ok m.heads.ofToList
  have properties : mapOfWire Wire.asValue (mapToWire Value.toWire m.properties) =
      .ok m.properties := mapRead named.properties fun e _ => e.2.wireRead
  have revisions : mapOfWire Revision.ofWire (mapToWire Revision.toWire m.revisions) =
      .ok m.revisions := mapRead named.revisions fun e _ => e.2.wireRead
  have conflicts : mapOfWire (Wire.asList Write.ofWire)
      (mapToWire (fun ws => .list (ws.map Write.toWire)) m.conflicts) = .ok m.conflicts := by
    refine mapRead named.conflicts fun e listed => ?_
    have each : ∀ w ∈ e.2, Write.ofWire w.toWire = .ok w := fun w member =>
      Write.wireRead fun null =>
        solid ⟨e.1, e.2, SortedMap.getIff.2 listed, w, member, null⟩
    rw [Wire.itemsRead each, List.map_id']
  have parts : ([("merge_heads", .list (m.heads.toList.map Revision.toWire)),
      ("properties", mapToWire Value.toWire m.properties),
      ("revisions", mapToWire Revision.toWire m.revisions),
      ("conflicts", mapToWire (fun ws => .list (ws.map Write.toWire)) m.conflicts)].foldlM
        Parts.read {}) =
      Except.ok ⟨some m.heads, some m.properties, some m.revisions, some m.conflicts⟩ := by
    simp only [List.foldlM_cons, List.foldlM_nil, Parts.read, Wire.fill, heads, properties,
      revisions, conflicts]
    rfl
  simp only [ofWire, toWire, Wire.fields, bind, Except.bind, parts]
  rfl

end Merge
end DocHistory
