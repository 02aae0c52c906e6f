import DocHistory.Proofs.DocumentLikeness
import DocHistory.Proofs.MergeWire

/-! Which versions and merges are read back from their serialized forms. Whatever the form, only
paths with texts are read, and no null where a deletion may stand; so nothing else comes back, even
by accident where two paths have one text. All that can come back does. -/
namespace DocHistory

namespace Wire

theorem valueNull {w : Wire} (read : w.toValue? = some .null) : w = null := by
  cases w with
  | null => rfl
  | list items =>
    obtain ⟨_, _, same⟩ := Option.map_eq_some_iff.1 read
    cases congrArg Value.json same
  | record members =>
    obtain ⟨_, _, same⟩ := Option.map_eq_some_iff.1 read
    cases congrArg Value.json same
  | _ => cases congrArg (Option.map Value.json) read

theorem writeSolid {w : Wire} {write : Option Value} (read : writeOfWire w = .ok write) :
    write ≠ some .null := by
  unfold writeOfWire asOption at read
  split at read
  · cases read
    exact nofun
  · rename_i solid
    obtain ⟨a, found, rfl⟩ := okMap.1 read
    intro null
    cases null
    unfold asValue at found
    split at found
    · rename_i value
      cases found
      exact solid (valueNull value)
    · cases found

theorem mapFrom {κ α : Type} [Ord κ] [Std.TransOrd κ] {key : String → Reading κ}
    {value : Wire → Reading α} {w : Wire} {m : SortedMap κ α} (read : w.asMap key value = .ok m) :
    ∀ e ∈ m.entries, (∃ s, key s = .ok e.1) ∧ ∃ u, value u = .ok e.2 := by
  unfold asMap at read
  split at read
  · refine foldKeeps (P := fun m : SortedMap κ α => ∀ e ∈ m.entries,
      (∃ s, key s = .ok e.1) ∧ ∃ u, value u = .ok e.2) ?_ (List.forall_mem_nil _) read
    intro m member n before step e listed
    obtain ⟨k, named, rest⟩ := okBind.1 step
    obtain ⟨a, held, same⟩ := okBind.1 rest
    cases same
    rcases Entries.memInserted listed with rfl | old
    · exact ⟨⟨_, named⟩, ⟨_, held⟩⟩
    · exact before e old
  · obtain ⟨_, _, fault⟩ := okBind.1 read
    cases fault
  · cases read

theorem keysNamed {α : Type} {value : Wire → Reading α} {w : Wire} {m : SortedMap Path α}
    (read : w.asMap Path.ofKey value = .ok m) : ∀ e ∈ m.entries, e.1.Named := by
  intro e listed
  obtain ⟨⟨s, key⟩, _⟩ := mapFrom read e listed
  rw [Path.ofKey] at key
  cases found : Path.ofText s with
  | error fault =>
    rw [found] at key
    cases key
  | ok path =>
    rw [found] at key
    cases key
    exact Path.readNamed found

theorem itemsFrom {α : Type} {item : Wire → Reading α} {w : Wire} {as : List α}
    (read : w.asList item = .ok as) : ∀ a ∈ as, ∃ u, item u = .ok a := by
  cases w with
  | list items =>
    have run : items.mapM item = .ok as := read
    induction items generalizing as with
    | nil =>
      cases run
      exact List.forall_mem_nil _
    | cons u us ih =>
      rw [List.mapM_cons] at run
      obtain ⟨a, own, rest⟩ := okBind.1 run
      obtain ⟨later, others, same⟩ := okBind.1 rest
      cases same
      exact List.forall_mem_cons.2 ⟨⟨u, own⟩, ih others others⟩
  | _ => cases read

def Filled {α : Type} (value : Wire → Reading α) (slot : Option α) : Prop :=
  ∀ a, slot = some a → ∃ w, value w = .ok a

theorem filledNone {α : Type} {value : Wire → Reading α} : Filled value none := nofun

theorem fillFilled {α : Type} {value : Wire → Reading α} {w : Wire} {slot filled : Option α}
    (read : fill slot (value w) = .ok filled) : Filled value filled := by
  cases slot with
  | some b => cases read
  | none =>
    obtain ⟨a, found, rfl⟩ := okMap.1 read
    intro b same
    cases same
    exact ⟨w, found⟩

theorem needFilled {α : Type} {value : Wire → Reading α} {slot : Option α} {a : α}
    (filled : Filled value slot) (read : need slot = .ok a) : ∃ w, value w = .ok a := by
  cases slot with
  | none => cases read
  | some b =>
    cases read
    exact filled a rfl

end Wire

namespace Version

theorem partsFilled {p q : Parts} {field : String × Wire}
    (before : Wire.Filled changesetOfWire p.changeset) (read : p.read field = .ok q) :
    Wire.Filled changesetOfWire q.changeset := by
  unfold Parts.read at read
  split at read
  case h_5 =>
    obtain ⟨slot, filled, same⟩ := okBind.1 read
    cases same
    exact Wire.fillFilled filled
  case h_6 =>
    cases read
    exact before
  all_goals
    obtain ⟨_, _, same⟩ := okBind.1 read
    cases same
    exact before

theorem changesetFrom {w : Wire} {v : Version} (read : ofWire w = .ok v) :
    ∃ u, changesetOfWire u = .ok v.changeset := by
  obtain ⟨⟨fields, complete⟩, _, read⟩ := okBind.1 read
  obtain ⟨p, run, read⟩ := okBind.1 read
  have filled : Wire.Filled changesetOfWire p.changeset :=
    foldKeeps (P := fun p : Parts => Wire.Filled changesetOfWire p.changeset)
      (fun _ _ _ => partsFilled) Wire.filledNone run
  split at read
  · cases read
  · obtain ⟨_, _, read⟩ := okBind.1 read
    obtain ⟨_, _, read⟩ := okBind.1 read
    obtain ⟨_, _, read⟩ := okBind.1 read
    obtain ⟨_, _, read⟩ := okBind.1 read
    obtain ⟨c, needed, read⟩ := okBind.1 read
    cases read
    exact Wire.needFilled filled needed

theorem formNamed {w : Wire} {v : Version} (read : ofWire w = .ok v) : v.Named := by
  obtain ⟨u, changeset⟩ := changesetFrom read
  exact Wire.keysNamed changeset

theorem formWrites {w : Wire} {v : Version} (read : ofWire w = .ok v) :
    ∀ e ∈ v.changeset.entries, e.2 ≠ some .null := by
  intro e listed
  obtain ⟨u, changeset⟩ := changesetFrom read
  obtain ⟨_, x, value⟩ := Wire.mapFrom changeset e listed
  exact Wire.writeSolid value

end Version

namespace Write

theorem partsFilled {p q : Parts} {field : String × Wire}
    (before : Wire.Filled writeOfWire p.value) (read : p.read field = .ok q) :
    Wire.Filled writeOfWire q.value := by
  unfold Parts.read at read
  split at read
  · obtain ⟨_, _, same⟩ := okBind.1 read
    cases same
    exact before
  · obtain ⟨slot, filled, same⟩ := okBind.1 read
    cases same
    exact Wire.fillFilled filled
  · cases read
    exact before

theorem formWrite {u : Wire} {w : Write} (read : ofWire u = .ok w) :
    w.value ≠ some .null := by
  obtain ⟨⟨fields, complete⟩, _, read⟩ := okBind.1 read
  obtain ⟨p, run, read⟩ := okBind.1 read
  have filled : Wire.Filled writeOfWire p.value :=
    foldKeeps (P := fun p : Parts => Wire.Filled writeOfWire p.value)
      (fun _ _ _ => partsFilled) Wire.filledNone run
  split at read
  · cases read
  · obtain ⟨r, _, read⟩ := okBind.1 read
    cases read
    cases found : p.value with
    | none => exact nofun
    | some value =>
      obtain ⟨x, written⟩ := filled value found
      exact Wire.writeSolid written

end Write

namespace Merge

structure Parts.Filled (p : Parts) : Prop where
  properties : Wire.Filled (mapOfWire Wire.asValue) p.properties
  revisions : Wire.Filled (mapOfWire Revision.ofWire) p.revisions
  conflicts : Wire.Filled (mapOfWire (Wire.asList Write.ofWire)) p.conflicts

theorem partsFilled {p q : Parts} {field : String × Wire} (before : p.Filled)
    (read : p.read field = .ok q) : q.Filled := by
  unfold Parts.read at read
  split at read
  case h_5 =>
    cases read
    exact before
  all_goals
    obtain ⟨slot, filled, same⟩ := okBind.1 read
    cases same
  · exact ⟨before.properties, before.revisions, before.conflicts⟩
  · exact ⟨Wire.fillFilled filled, before.revisions, before.conflicts⟩
  · exact ⟨before.properties, Wire.fillFilled filled, before.conflicts⟩
  · exact ⟨before.properties, before.revisions, Wire.fillFilled filled⟩

theorem mapsFrom {w : Wire} {m : Merge} (read : ofWire w = .ok m) :
    (∃ u : Wire, mapOfWire Wire.asValue u = .ok m.properties) ∧
    (∃ u : Wire, mapOfWire Revision.ofWire u = .ok m.revisions) ∧
    ∃ u : Wire, mapOfWire (Wire.asList Write.ofWire) u = .ok m.conflicts := by
  obtain ⟨⟨fields, complete⟩, _, read⟩ := okBind.1 read
  obtain ⟨p, run, read⟩ := okBind.1 read
  have filled : p.Filled :=
    foldKeeps (fun _ _ _ => partsFilled) ⟨Wire.filledNone, Wire.filledNone, Wire.filledNone⟩ run
  split at read
  · cases read
  · obtain ⟨_, _, read⟩ := okBind.1 read
    obtain ⟨_, properties, read⟩ := okBind.1 read
    obtain ⟨_, revisions, read⟩ := okBind.1 read
    obtain ⟨_, conflicts, read⟩ := okBind.1 read
    cases read
    exact ⟨Wire.needFilled filled.properties properties,
      Wire.needFilled filled.revisions revisions, Wire.needFilled filled.conflicts conflicts⟩

theorem formNamed {w : Wire} {m : Merge} (read : ofWire w = .ok m) : m.Named := by
  obtain ⟨⟨_, properties⟩, ⟨_, revisions⟩, ⟨_, conflicts⟩⟩ := mapsFrom read
  exact ⟨Wire.keysNamed properties, Wire.keysNamed revisions, Wire.keysNamed conflicts⟩

theorem formConflicts {w : Wire} {m : Merge} (read : ofWire w = .ok m) :
    ∀ e ∈ m.conflicts.entries, ∀ v ∈ e.2, v.value ≠ some .null := by
  intro e listed v member
  obtain ⟨_, _, _, conflicts⟩ := mapsFrom read
  obtain ⟨_, x, writes⟩ := Wire.mapFrom conflicts e listed
  obtain ⟨y, write⟩ := Wire.itemsFrom writes v member
  exact Write.formWrite write

end Merge

/-! Values that count as equal. -/

theorem memAlike {α : Type} [BEq α] {as bs : List α} (same : (as == bs) = true) :
    ∀ b ∈ bs, ∃ a ∈ as, (a == b) = true := by
  induction as generalizing bs with
  | nil =>
    cases bs with
    | nil => exact List.forall_mem_nil _
    | cons b bs => cases same
  | cons a as ih =>
    cases bs with
    | nil => exact List.forall_mem_nil _
    | cons b bs =>
      obtain ⟨first, rest⟩ := Bool.and_eq_true_iff.1 same
      refine List.forall_mem_cons.2 ⟨⟨a, List.mem_cons_self, first⟩, fun c listed => ?_⟩
      obtain ⟨d, member, alike⟩ := ih rest c listed
      exact ⟨d, List.mem_cons_of_mem _ member, alike⟩

theorem entryAlike {κ α : Type} [Ord κ] [BEq κ] [LawfulBEq κ] [BEq α] {m n : SortedMap κ α}
    (same : (m == n) = true) : ∀ e ∈ n.entries, ∃ a, (e.1, a) ∈ m.entries ∧ (a == e.2) = true := by
  intro e listed
  obtain ⟨⟨k, a⟩, member, alike⟩ := memAlike same e listed
  obtain ⟨key, value⟩ := Bool.and_eq_true_iff.1 alike
  obtain rfl : k = e.1 := eq_of_beq key
  exact ⟨a, member, value⟩

instance {κ α : Type} [Ord κ] [BEq κ] [LawfulBEq κ] [BEq α] [ReflBEq α] :
    ReflBEq (SortedMap κ α) where
  rfl {m} := BEq.refl m.entries

theorem nullAlike {write : Option Value} (same : (write == some .null) = true) :
    write = some .null := by
  cases write with
  | none => cases same
  | some a =>
    obtain ⟨a, ordered⟩ := a
    cases a with
    | null => rfl
    | _ => cases same

instance : ReflBEq Write where
  rfl {w} := Bool.and_eq_true_iff.2 ⟨BEq.refl w.revision, BEq.refl w.value⟩

instance : ReflBEq Version where
  rfl {v} := Bool.and_eq_true_iff.2 ⟨BEq.refl v.revision, Bool.and_eq_true_iff.2
    ⟨BEq.refl v.parents, Bool.and_eq_true_iff.2 ⟨BEq.refl v.branch, Bool.and_eq_true_iff.2
      ⟨BEq.refl v.kind, BEq.refl v.changeset⟩⟩⟩⟩

instance : ReflBEq Merge where
  rfl {m} := Bool.and_eq_true_iff.2 ⟨BEq.refl m.heads, Bool.and_eq_true_iff.2
    ⟨BEq.refl m.properties, Bool.and_eq_true_iff.2
      ⟨BEq.refl m.revisions, BEq.refl m.conflicts⟩⟩⟩

theorem Version.changesetAlike {v w : Version} (same : (v == w) = true) :
    (v.changeset == w.changeset) = true := by
  obtain ⟨_, same⟩ := Bool.and_eq_true_iff.1 same
  obtain ⟨_, same⟩ := Bool.and_eq_true_iff.1 same
  obtain ⟨_, same⟩ := Bool.and_eq_true_iff.1 same
  exact (Bool.and_eq_true_iff.1 same).2

theorem Merge.mapsAlike {m n : Merge} (same : (m == n) = true) :
    (m.properties == n.properties) = true ∧ (m.revisions == n.revisions) = true ∧
      (m.conflicts == n.conflicts) = true := by
  obtain ⟨_, same⟩ := Bool.and_eq_true_iff.1 same
  obtain ⟨properties, same⟩ := Bool.and_eq_true_iff.1 same
  exact ⟨properties, Bool.and_eq_true_iff.1 same⟩

theorem keysAlike {α : Type} [BEq α] {m n : SortedMap Path α} (same : (m == n) = true)
    (named : ∀ e ∈ m.entries, e.1.Named) : ∀ e ∈ n.entries, e.1.Named := by
  intro e listed
  obtain ⟨a, member, _⟩ := entryAlike same e listed
  exact named (e.1, a) member

def Restores {α : Type} [BEq α] (read : Reading α) (a : α) : Prop :=
  ∃ b, read = .ok b ∧ (b == a) = true

theorem restoresSame {α : Type} [BEq α] [ReflBEq α] {read : Reading α} {a : α}
    (same : read = .ok a) : Restores read a := ⟨a, same, BEq.refl a⟩

theorem Version.restored {w : Wire} {v : Version} (back : Restores (ofWire w) v) :
    ¬ v.WritesNull ∧ v.Named := by
  obtain ⟨r, read, same⟩ := back
  have changesets := changesetAlike same
  refine ⟨?_, keysAlike changesets (formNamed read)⟩
  rintro ⟨path, null⟩
  obtain ⟨write, listed, alike⟩ := entryAlike changesets _ (SortedMap.getIff.1 null)
  exact formWrites read _ listed (nullAlike alike)

theorem Merge.restored {w : Wire} {m : Merge} (back : Restores (ofWire w) m) :
    m.Named ∧ ¬ m.ListsNull := by
  obtain ⟨r, read, same⟩ := back
  obtain ⟨properties, revisions, conflicts⟩ := mapsAlike same
  have named := formNamed read
  refine ⟨⟨keysAlike properties named.properties, keysAlike revisions named.revisions,
    keysAlike conflicts named.conflicts⟩, ?_⟩
  rintro ⟨path, writes, found, write, member, null⟩
  obtain ⟨others, listed, alike⟩ := entryAlike conflicts _ (SortedMap.getIff.1 found)
  obtain ⟨other, among, like⟩ := memAlike alike write member
  have value : (other.value == write.value) = true := (Bool.and_eq_true_iff.1 like).2
  rw [null] at value
  exact formConflicts read _ listed other among (nullAlike value)

theorem formsReadBack :
    (∀ v : Version, Restores (Version.ofWire v.toWire) v ↔ ¬ v.WritesNull ∧ v.Named) ∧
    (∀ m : Merge, Restores (Merge.ofWire m.toWire) m ↔ m.Named ∧ ¬ m.ListsNull) ∧
    ∀ {α : Type} (interpret : Wire → Reading α) (w : Wire), Wire.Legible 127 w →
      Wire.decode interpret w.render = interpret w := by
  refine ⟨fun v => ⟨Version.restored, fun ⟨solid, named⟩ => ?_⟩,
    fun m => ⟨Merge.restored, fun ⟨named, solid⟩ => restoresSame (Merge.wireRead named solid)⟩,
    fun interpret w legible => ?_⟩
  · refine restoresSame ((Version.wireRead named).trans ?_)
    rw [Version.forgetNullsSame.2 solid]
  · rw [Wire.decode, Wire.renderRead legible]
    dsimp only
    cases interpret w <;> rfl

def deleting : Version where
  revision := ⟨2, 1, 0⟩
  parents := SortedSet.ofList [⟨1, 1, 0⟩]
  branch := defaultBranch
  kind := .normal
  changeset := SortedMap.ofList [(Path.marked, none)]

def contested : Merge where
  heads := SortedSet.ofList [⟨2, 1, 0⟩, ⟨2, 2, 0⟩]
  properties := SortedMap.ofList [(Path.marked, .null)]
  revisions := SortedMap.ofList [(Path.marked, ⟨2, 2, 0⟩)]
  conflicts := SortedMap.ofList [(Path.marked, [⟨⟨2, 1, 0⟩, some .null⟩])]

theorem deletingRestored : Wire.Legible 127 deleting.toWire ∧
    Restores (Wire.decode Version.ofWire deleting.toWire.render) deleting ∧
    ¬ Restores (Merge.ofWire contested.toWire) contested := by
  have legible : Wire.Legible 127 deleting.toWire :=
    Version.wireLegible (List.forall_mem_singleton.2 (.null _))
  obtain ⟨versions, merges, texts⟩ := formsReadBack
  refine ⟨legible, ?_, fun back => ?_⟩
  · rw [texts Version.ofWire _ legible]
    have named : deleting.Named := List.forall_mem_singleton.2 (by simp [Path.Named, Path.marked])
    refine (versions _).2 ⟨?_, named⟩
    rintro ⟨path, null⟩
    cases List.mem_singleton.1 (SortedMap.getIff.1 null)
  · have listed := List.mem_singleton_self (Path.marked, [Write.mk ⟨2, 1, 0⟩ (some .null)])
    exact ((merges _).1 back).2
      ⟨Path.marked, _, SortedMap.getIff.2 listed, _, List.mem_singleton_self _, rfl⟩

end DocHistory
