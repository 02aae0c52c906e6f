import DocHistory.Version.Wire
import DocHistory.Proofs.IdentifierText
import DocHistory.Proofs.LeafPaths
import DocHistory.Proofs.PathText
import DocHistory.Proofs.WireText

/-! Versions read back from their serialized form. All of a version comes back but for the nulls
that it writes: a missing value is written as null too, so each of them comes back as a deletion. -/
namespace DocHistory

theorem SortedSet.ofToList {κ : Type} [Ord κ] [Std.TransOrd κ] [Std.LawfulEqOrd κ] [DecidableEq κ]
    (s : SortedSet κ) : SortedSet.ofList s.toList = s := by
  have listed : s.toList.map (fun k => (k, ())) = s.entries := by
    rw [SortedSet.toList, SortedMap.keys, List.map_map]
    exact List.map_id _
  exact SortedMap.ofListSorted s fun e => by rw [listed]

namespace Wire

theorem entriesRead {κ α β : Type} [Ord κ] [Std.TransOrd κ] [Std.LawfulEqOrd κ] [DecidableEq κ]
    {key : String → Reading κ} {value : Wire → Reading β} {text : κ → String} (wire : α → Wire)
    (f : α → β) {m : SortedMap κ α} (keys : ∀ e ∈ m.entries, key (text e.1) = .ok e.1)
    (values : ∀ e ∈ m.entries, value (wire e.2) = .ok (f e.2)) :
    (record (m.entries.map fun e => (text e.1, wire e.2))).asMap key value =
      .ok (m.filterMap fun _ a => some (f a)) := by
  have run : ∀ (es : List (κ × α)) (done : SortedMap κ β), (∀ e ∈ es, e ∈ m.entries) →
      (es.map fun e => (text e.1, wire e.2)).foldlM (fun m e => do
        let k ← key e.1
        let a ← value e.2
        .ok (m.insert k a)) done = Except.ok (es.foldl (fun m e => m.insert e.1 (f e.2)) done) := by
    intro es
    induction es with
    | nil => exact fun _ _ => rfl
    | cons e es ih =>
      intro done sub
      obtain ⟨own, others⟩ := List.forall_mem_cons.1 sub
      rw [List.map_cons, List.foldlM_cons, keys e own, values e own]
      exact ih _ others
  refine (run m.entries ∅ fun _ listed => listed).trans (congrArg Except.ok ?_)
  apply SortedMap.extGet
  intro k
  refine (Entries.foldAt (fun m : SortedMap κ β => m.get? k) (fun a _ => some (f a)) k
    (fun e _ m => SortedMap.getInsert m e.1 k (f e.2)) m.ascending ∅).trans ?_
  change (m.get? k).elim none (fun a => some (f a)) = _
  rw [SortedMap.mapGet]
  cases m.get? k <;> rfl

theorem itemsRead {α β : Type} {item : Wire → Reading β} {wire : α → Wire} {f : α → β}
    {as : List α} (each : ∀ a ∈ as, item (wire a) = .ok (f a)) :
    (list (as.map wire)).asList item = .ok (as.map f) := by
  change (as.map wire).mapM item = .ok (as.map f)
  induction as with
  | nil => rfl
  | cons a as ih =>
    obtain ⟨own, others⟩ := List.forall_mem_cons.1 each
    rw [List.map_cons, List.mapM_cons, own, ih others]
    rfl

end Wire

namespace Json

mutual

theorem wireRead : (a : Json) → a.Ordered → a.toWire.toValue?.map Value.json = some a
  | null, _ => rfl
  | bool _, _ => rfl
  | number _, _ => rfl
  | string _, _ => rfl
  | array items, ordered => by
    obtain ⟨as, read, same⟩ := Option.map_eq_some_iff.1 (itemsWireRead items ordered)
    rw [toWire, Wire.toValue?, read]
    exact congrArg (fun items => some (array items)) same
  | object members, ⟨ascending, ordered⟩ => by
    obtain ⟨ms, read, same⟩ := Option.map_eq_some_iff.1 (membersWireRead members ordered)
    have sorted : SortedMap.ofList members = ⟨members, ascending⟩ :=
      SortedMap.ofListSorted _ fun _ => Iff.rfl
    rw [toWire, Wire.toValue?, read]
    have whole : ofMembers members = object members :=
      congrArg (fun m : SortedMap String Json => object m.entries) sorted
    exact congrArg some ((congrArg ofMembers same).trans whole)

theorem itemsWireRead : (items : List Json) → OrderedItems items →
    (Wire.itemsToValues? (itemsToWire items)).map (List.map Value.json) = some items
  | [], _ => rfl
  | a :: as, ⟨own, others⟩ => by
    obtain ⟨v, first, rfl⟩ := Option.map_eq_some_iff.1 (wireRead a own)
    obtain ⟨vs, rest, rfl⟩ := Option.map_eq_some_iff.1 (itemsWireRead as others)
    rw [itemsToWire, Wire.itemsToValues?, first, rest]
    rfl

theorem membersWireRead : (members : List (String × Json)) → OrderedMembers members →
    (Wire.membersToValues? (membersToWire members)).map
      (List.map fun m => (m.1, m.2.json)) = some members
  | [], _ => rfl
  | (k, a) :: as, ⟨own, others⟩ => by
    obtain ⟨v, first, rfl⟩ := Option.map_eq_some_iff.1 (wireRead a own)
    obtain ⟨vs, rest, rfl⟩ := Option.map_eq_some_iff.1 (membersWireRead as others)
    rw [membersToWire, Wire.membersToValues?, first, rest]
    rfl

end

theorem Bare.legible {a : Json} (bare : a.Bare) (numbers : ∀ n, a = .number n → n.Legible)
    (depth : Nat) : Wire.Legible (depth + 1) a.toWire := by
  cases a with
  | null => exact .null _
  | bool b => exact .bool _ b
  | number n => exact .number _ (numbers n rfl)
  | string s => exact .text _ s
  | array items =>
    cases bare.1
    exact .list (List.forall_mem_nil _)
  | object members =>
    cases bare.2
    exact .record (List.forall_mem_nil _)

end Json

theorem Revision.keyRead (r : Revision) : Revision.ofKey r.text = .ok r := by
  rw [Revision.ofKey, Revision.textRead]
  rfl

theorem Revision.wireRead (r : Revision) : Revision.ofWire r.toWire = .ok r := by
  simp only [Revision.ofWire, Revision.toWire, Wire.asText, bind, Except.bind, Revision.keyRead]

theorem Path.keyRead {p : Path} (named : p.Named) : Path.ofKey p.text = .ok p := by
  rw [Path.ofKey, Path.textRead named]
  rfl

theorem VersionKind.wireRead (k : VersionKind) : VersionKind.ofWire k.toWire = .ok k := by
  cases k <;> rfl

theorem Value.wireRead (a : Value) : Wire.asValue a.toWire = .ok a := by
  obtain ⟨b, read, same⟩ := Option.map_eq_some_iff.1 (Json.wireRead a.json a.ordered)
  rw [Wire.asValue, toWire, read, Value.ext same]

def forgetNull (write : Option Value) : Option Value := write.filter fun a => !a.isNull

theorem forgetNullSame {write : Option Value} : forgetNull write = write ↔ write ≠ some .null := by
  cases write with
  | none => simp [forgetNull]
  | some a => simp [forgetNull, ← Value.isNullIff]

theorem writeRead (write : Option Value) :
    writeOfWire (writeToWire write) = .ok (forgetNull write) := by
  cases write with
  | none => rfl
  | some a =>
    have read := a.wireRead
    obtain ⟨a, ordered⟩ := a
    cases a with
    | null => rfl
    | _ => exact congrArg (Except.map some) read

namespace Version

def WritesNull (v : Version) : Prop := ∃ path, v.changeset.get? path = some (some .null)

def forgetNulls (v : Version) : Version :=
  { v with changeset := v.changeset.filterMap fun _ write => some (forgetNull write) }

theorem forgetNullsGet (v : Version) (path : Path) :
    v.forgetNulls.changeset.get? path = (v.changeset.get? path).map forgetNull :=
  SortedMap.mapGet forgetNull v.changeset path

theorem forgetNullsSame {v : Version} : v.forgetNulls = v ↔ ¬ v.WritesNull := by
  constructor
  · rintro same ⟨path, writes⟩
    have kept := v.forgetNullsGet path
    rw [same, writes] at kept
    cases kept
  · intro absent
    have changeset : v.forgetNulls.changeset = v.changeset := by
      apply SortedMap.extGet
      intro path
      rw [forgetNullsGet]
      cases found : v.changeset.get? path with
      | none => rfl
      | some write =>
        exact congrArg some (forgetNullSame.2 fun null => absent ⟨path, null ▸ found⟩)
    cases v
    exact congrArg (Version.mk _ _ _ _) changeset

def Named (v : Version) : Prop := ∀ e ∈ v.changeset.entries, e.1.Named

theorem changesetRead {v : Version} (named : v.Named) :
    changesetOfWire (changesetToWire v.changeset) = .ok v.forgetNulls.changeset :=
  Wire.entriesRead writeToWire forgetNull (fun e listed => Path.keyRead (named e listed))
    fun e _ => writeRead e.2

theorem wireRead {v : Version} (named : v.Named) : ofWire v.toWire = .ok v.forgetNulls := by
  have parents : ((Wire.list (v.parents.toList.map Revision.toWire)).asList Revision.ofWire).map
      SortedSet.ofList = .ok v.parents := by
    rw [Wire.itemsRead fun r _ => r.wireRead, List.map_id']
    exact congrArg Except.ok v.parents.ofToList
  have parts : ([("revision", v.revision.toWire),
      ("parents", .list (v.parents.toList.map Revision.toWire)), ("branch", .text v.branch),
      ("kind", v.kind.toWire), ("changeset", changesetToWire v.changeset)].foldlM Parts.read {}) =
      Except.ok ⟨some v.revision, some v.parents, some v.branch, some v.kind,
        some v.forgetNulls.changeset⟩ := by
    simp only [List.foldlM_cons, List.foldlM_nil, Parts.read, Wire.fill, Revision.wireRead, parents,
      VersionKind.wireRead, changesetRead named]
    rfl
  simp only [ofWire, toWire, Wire.fields, bind, Except.bind, parts]
  rfl

theorem wireLegible {v : Version} {depth : Nat}
    (values : ∀ e ∈ v.changeset.entries, Wire.Legible (depth + 1) (writeToWire e.2)) :
    Wire.Legible (depth + 3) v.toWire := by
  have parents : ∀ w ∈ v.parents.toList.map Revision.toWire, Wire.Legible (depth + 1) w := by
    intro w listed
    obtain ⟨r, _, rfl⟩ := List.mem_map.1 listed
    exact .text _ _
  have changes : ∀ m ∈ v.changeset.entries.map fun e => (e.1.text, writeToWire e.2),
      Wire.Legible (depth + 1) m.2 := by
    intro m listed
    obtain ⟨e, member, rfl⟩ := List.mem_map.1 listed
    exact values e member
  refine .record (List.forall_mem_cons.2 ⟨.text _ _, List.forall_mem_cons.2 ⟨.list parents,
    List.forall_mem_cons.2 ⟨.text _ _, List.forall_mem_cons.2 ⟨.text _ _,
      List.forall_mem_singleton.2 (.record changes)⟩⟩⟩⟩)

end Version
end DocHistory
