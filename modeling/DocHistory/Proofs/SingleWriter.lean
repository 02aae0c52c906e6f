import DocHistory.Proofs.DocumentRoundTrip
import DocHistory.Proofs.LinearBranches
import DocHistory.Proofs.ReloadedGraphs

/-! One writer who saves documents to the branches of one graph, each time with the graph that the
last call returned. The writer's journal has for each branch the document that was saved last, and
counts the calls that brought another one. Graph and store show what the journal says. -/
namespace DocHistory
open Node

structure Save where
  branch : String
  document : Value
  revision : Revision

structure Journal where
  documents : String → Value
  changes : Nat

namespace Journal

def blank : Journal := ⟨fun _ => .null, 0⟩

def enter (j : Journal) (e : Save) : Journal where
  documents := Function.update j.documents e.branch e.document
  changes := if j.documents e.branch == e.document then j.changes else j.changes + 1

def after (saves : List Save) : Journal := saves.foldl enter blank

theorem enterOwn (j : Journal) (e : Save) : (j.enter e).documents e.branch = e.document :=
  Function.update_self ..

theorem enterOther (j : Journal) {e : Save} {branch : String} (other : branch ≠ e.branch) :
    (j.enter e).documents branch = j.documents branch := Function.update_of_ne other ..

end Journal

structure Writer where
  graph : Graph
  store : Store
  cache : Cache
  fresh : Nat

namespace Writer

def start (config : Config) : Writer := ⟨Graph.empty config 0, .empty, .empty, 1⟩

def save (id : DocumentId) (w : Writer) (e : Save) : Except StoreError Writer :=
  match (Cache.writeDocument [] id w.graph e.branch e.document e.revision w.fresh w.store).run
    w.cache with
  | ((.ok g, store), cache) => .ok ⟨g, store, cache, w.fresh + 1⟩
  | ((.error e, _), _) => .error e

def run (id : DocumentId) (w : Writer) (saves : List Save) : Except StoreError Writer :=
  saves.foldlM (save id) w

structure Shows (w : Writer) (id : DocumentId) (j : Journal) : Prop where
  reads : ∀ branch, ∃ d, ((Cache.readDocument w.graph [branch]).run w.cache).1 = .ok d ∧
    (d == j.documents branch) = true
  reloads : 0 < w.store.size → ∀ config fresh, w.fresh ≤ fresh → ∃ g,
    Repository.load config id fresh w.store = .ok g ∧ ∀ branch, ∃ d,
      ((Cache.readDocument g [branch]).run w.cache).1 = .ok d ∧ (d == j.documents branch) = true
  heads : ∀ branch, w.graph.heads branch = [] ∨ ∃ n, w.graph.heads branch = [n] ∧
    (((Cache.view n).run w.cache).1.properties == (j.documents branch).flatten) = true
  merges : ∀ branch, (∃ m, ((Cache.mergeBranches w.graph [branch]).run w.cache).1 = .ok m ∧
      m.hasConflicts = false) ∧
    ∀ ns, (∀ n ∈ ns, n ∈ w.graph.nodes ∧ n.branch = branch) → ∃ m,
      ((Cache.mergeNodes ns).run w.cache).1 = .ok m ∧ m.hasConflicts = false
  counted : w.store.size = j.changes ∧ w.store.pending = ∅

end Writer

structure Graph.Holds (g : Graph) (branch : String) (d : Value) : Prop where
  short : d.json.Short
  shows : (Resolution.properties (joined (g.heads branch)) == d.flatten) = true

namespace Graph.Holds
variable {g : Graph} {branch : String} {d : Value} (holds : g.Holds branch d)
include holds

theorem reads : ∃ d', Repository.shown (g.heads branch) = .ok d' ∧ (d' == d) = true := by
  obtain ⟨d', assembled, same⟩ :=
    Properties.assembleAlike holds.shows (Value.flattenAssembles holds.short)
  exact ⟨d', Repository.shownOk.2 assembled, same⟩

end Graph.Holds

namespace Lineage.Sound
variable {s : Lineage} (sound : s.Sound)
include sound

theorem alone {h : Graph} (member : h ∈ s.graphs) (sub : s.nodes ⊆ h.nodes) :
    Sound ⟨[h], s.cache, s.fresh⟩ := by
  have nodes : (⟨[h], s.cache, s.fresh⟩ : Lineage).nodes = h.nodes := List.append_nil _
  have all : ∀ n ∈ h.nodes, n ∈ s.nodes := nodesOf member
  constructor
  · intro g listed
    exact List.mem_singleton.1 listed ▸ sound.tracked h member
  · rw [nodes]
    exact fun a ha b hb => sound.single a (all a ha) b (all b hb)
  · rw [nodes]
    exact fun n inside => sound.below n (all n inside)
  · rw [nodes]
    exact sound.coherent.mono sub

theorem load {g k : Graph} (member : g ∈ s.graphs) {config : Config} {fresh : Nat}
    (later : s.fresh ≤ fresh) {versions : List Version}
    (done : (Graph.empty config fresh).commit versions (fresh + 1) = .ok k) :
    Sound ⟨s.graphs ++ [k], s.cache, fresh + (versions.length + 1)⟩ := by
  have waited : Sound { s with fresh := fresh } :=
    ⟨sound.tracked, sound.single, fun n inside => Nat.lt_of_lt_of_le (sound.below n inside) later,
      sound.coherent⟩
  obtain ⟨added, nodes, _, names⟩ := Graph.commitAdds done
  have all : k.nodes = added := nodes
  have tracked := Graph.commitTracked (Graph.emptyTracked config fresh) done
  refine waited.grow member tracked ⟨fun n inside => .inr ?_, fun a ha b hb _ same => ?_⟩
  · have listed := List.mem_map_of_mem (f := Node.id) (all ▸ inside)
    rw [names, List.mem_range'_1] at listed
    change fresh ≤ n.id ∧ n.id < fresh + (versions.length + 1)
    omega
  · have distinct : (added.map Node.id).Nodup := names ▸ List.nodup_range'
    exact List.inj_on_of_nodup_map distinct (all ▸ ha) (all ▸ hb) same

end Lineage.Sound

theorem VersionLogs.extendTwice (id : DocumentId) (vs ws : List Version) :
    extend (extend ∅ id vs) id ws = extend ∅ id (vs ++ ws) := by
  by_cases absent : ws = []
  · subst absent
    rw [List.append_nil]
    rfl
  · have held : ((extend ∅ id vs).get? id).getD [] = vs := by
      cases vs with
      | nil => rfl
      | cons v vs =>
        rw [getExtend (List.cons_ne_nil _ _), if_pos rfl]
        rfl
    have filled : vs ++ ws ≠ [] := fun empty => absent (List.append_eq_nil_iff.1 empty).2
    apply SortedMap.extGet
    intro k
    rw [getExtend absent, getExtend filled, held]
    by_cases same : k = id
    · rw [if_pos same, if_pos same]
      rfl
    · rw [if_neg same, if_neg same]
      cases vs with
      | nil => rfl
      | cons v vs => rw [getExtend (List.cons_ne_nil _ _), if_neg same]

namespace Writer

structure Kept (w : Writer) (id : DocumentId) (j : Journal) (seen : List Revision) : Prop where
  sound : (⟨[w.graph], w.cache, w.fresh⟩ : Lineage).Sound
  linear : w.graph.Linear
  stored : w.store = { committed := VersionLogs.extend ∅ id (w.graph.nodes.map Node.version) }
  counted : w.graph.nodes.length = j.changes
  named : ∀ n ∈ w.graph.nodes, n.revision ∈ seen
  holds : ∀ branch, w.graph.Holds branch (j.documents branch)

theorem startKept (config : Config) (id : DocumentId) : (start config).Kept id .blank [] where
  sound := Lineage.startSound config
  linear := Graph.emptyLinear config 0
  stored := rfl
  counted := rfl
  named _ member := absurd member List.not_mem_nil
  holds _ := ⟨trivial, rfl⟩

namespace Kept
variable {w : Writer} {id : DocumentId} {j : Journal} {seen : List Revision}
  (kept : w.Kept id j seen)
include kept

theorem tracked : w.graph.Tracked := kept.sound.tracked _ (List.mem_singleton_self _)

theorem saves {e : Save} {h : Graph} {t : Store}
    (written : Repository.write [] id w.graph e.branch e.document e.revision w.fresh w.store =
      (.ok h, t)) : ∃ c, w.save id e = .ok ⟨h, t, c, w.fresh + 1⟩ ∧
        Lineage.Sound ⟨[w.graph] ++ [h], c, w.fresh + 1⟩ := by
  have member := List.mem_singleton_self w.graph
  have answer := (kept.sound.write member).trans written
  rcases done : (Cache.writeDocument [] id w.graph e.branch e.document e.revision w.fresh
    w.store).run w.cache with ⟨answered, c⟩
  rw [done] at answer
  cases answer
  refine ⟨c, ?_, kept.sound.writes member done⟩
  rw [save, done]

section Saves
variable {e : Save} (short : e.document.json.Short)
include short

theorem unchanged (same : (j.documents e.branch == e.document) = true) {c : Cache}
    (sound : Lineage.Sound ⟨[w.graph] ++ [w.graph], c, w.fresh + 1⟩) :
    Kept ⟨w.graph, w.store, c, w.fresh + 1⟩ id (j.enter e) (e.revision :: seen) where
  sound := sound.alone (List.mem_cons_self) (by simp [Lineage.nodes])
  linear := kept.linear
  stored := kept.stored
  counted := by
    rw [Journal.enter, same]
    exact kept.counted
  named n member := List.mem_cons_of_mem _ (kept.named n member)
  holds branch := by
    have before := kept.holds branch
    by_cases own : branch = e.branch
    · subst own
      rw [Journal.enterOwn]
      exact ⟨short, PartialEquivBEq.trans before.shows (Value.flattenAlike same)⟩
    · rw [Journal.enterOther j own]
      exact before

theorem changed {previous : Value} (alike : (previous == j.documents e.branch) = true)
    (apart : (j.documents e.branch == e.document) = false) {h : Graph} {n : Node}
    (continues : Graph.Continues w.graph h n)
    (version : n.version = w.graph.revised e.branch (previous.changes e.document) e.revision)
    {c : Cache} (sound : Lineage.Sound ⟨[w.graph] ++ [h], c, w.fresh + 1⟩) :
    Kept ⟨h, (w.store.append id [n.version]).commit, c, w.fresh + 1⟩ id (j.enter e)
      (e.revision :: seen) := by
  have after : h.Tracked := sound.tracked h (List.mem_append_right _ (List.mem_singleton_self h))
  have grown : w.graph.nodes ⊆ h.nodes := by
    rw [continues.nodes]
    exact List.subset_append_left _ _
  have named : n.branch = e.branch := congrArg Version.branch version
  have changeset : n.changeset = previous.changes e.document := congrArg Version.changeset version
  have revision : n.revision = e.revision := congrArg Version.revision version
  constructor
  · refine sound.alone (List.mem_append_right _ (List.mem_singleton_self h)) ?_
    simp [Lineage.nodes, grown]
  · exact kept.linear.continued continues kept.tracked after
  · rw [kept.stored, Store.commitAppend rfl (List.cons_ne_nil _ _), VersionLogs.extendTwice,
      continues.nodes, List.map_append]
    rfl
  · rw [continues.nodes, List.length_append, kept.counted, Journal.enter, apart]
    rfl
  · intro m member
    rw [continues.nodes] at member
    rcases List.mem_append.1 member with old | last
    · exact List.mem_cons_of_mem _ (kept.named m old)
    · rw [List.mem_singleton.1 last, revision]
      exact List.mem_cons_self
  · intro branch
    have before := kept.holds branch
    by_cases own : branch = e.branch
    · subst own
      rw [Journal.enterOwn]
      refine ⟨short, ?_⟩
      rw [← named, continues.shows kept.tracked after, named, changeset,
        Graph.frontierActive (kept.linear.active kept.tracked _)]
      refine Properties.changesLead ?_ e.document
      exact PartialEquivBEq.trans before.shows (PartialEquivBEq.symm (Value.flattenAlike alike))
    · rw [Journal.enterOther j own]
      refine ⟨before.short, ?_⟩
      rw [continues.otherHeads kept.tracked after (named ▸ own)]
      exact before.shows

theorem saved (named : e.branch.isEmpty = false) (new : e.revision ∉ seen) :
    ∃ v, w.save id e = .ok v ∧ v.Kept id (j.enter e) (e.revision :: seen) := by
  have tracked := kept.tracked
  have active := Graph.frontierActive (kept.linear.active tracked e.branch)
  have free : w.graph.contains e.revision = false := by
    refine Bool.eq_false_iff.2 fun known => ?_
    obtain ⟨n, member, same⟩ := Graph.containsIff.1 known
    exact new (same ▸ kept.named n member)
  -- The branch reads as the journal's document up to the sign of zeros, and nothing more is needed
  -- to tell whether there are changes.
  obtain ⟨previous, shows, alike⟩ := (kept.holds e.branch).reads
  have quiet : (previous.changes e.document).isEmpty = true ↔
      (j.documents e.branch == e.document) = true := (Value.changesNone short).trans
    ⟨PartialEquivBEq.trans (PartialEquivBEq.symm alike), PartialEquivBEq.trans alike⟩
  have written := Repository.writeShown tracked (active.symm ▸ shows) [] id e.document e.revision
    w.fresh w.store
  cases same : j.documents e.branch == e.document with
  | true =>
    rw [if_pos (quiet.2 same)] at written
    obtain ⟨c, done, sound⟩ := kept.saves written
    exact ⟨_, done, kept.unchanged short same sound⟩
  | false =>
    have own := Graph.frontierFree tracked free e.branch
    obtain ⟨h, n, extended, continues, version⟩ :=
      Graph.commitRevised tracked free e.branch (previous.changes e.document) w.fresh
    rw [if_neg (by rw [quiet, same]; exact Bool.false_ne_true), if_neg own,
      if_neg (by rw [named]; exact Bool.false_ne_true), Repository.commitStores extended,
      ← version] at written
    obtain ⟨c, done, sound⟩ := kept.saves written
    exact ⟨_, done, kept.changed short alike same continues version sound⟩

end Saves

theorem merges (branch : String) {ns : List Node}
    (one : ∀ n ∈ ns, n ∈ w.graph.nodes ∧ n.branch = branch) :
    ∃ m, ((Cache.mergeNodes ns).run w.cache).1 = .ok m ∧ m.hasConflicts = false := by
  have inside : w.graph.nodes ⊆ (⟨[w.graph], w.cache, w.fresh⟩ : Lineage).nodes :=
    Lineage.Sound.nodesOf (List.mem_singleton_self _)
  have calm := kept.linear.joinedCalm kept.tracked (fun n listed => (one n listed).1)
    fun m hm n hn => (one m hm).2.trans (one n hn).2.symm
  have answer := (Cache.readsMergeNodes kept.sound.identified
    (fun n listed => inside (one n listed).1) w.cache kept.sound.coherent).1
  refine ⟨_, answer.trans (Graph.mergeNodesOk ns), ?_⟩
  rw [Merge.hasConflicts, Merge.ofResolution, calm]
  rfl

theorem headShows (branch : String) : w.graph.heads branch = [] ∨ ∃ n,
    w.graph.heads branch = [n] ∧
      (((Cache.view n).run w.cache).1.properties == (j.documents branch).flatten) = true := by
  rcases kept.linear.headsCases kept.tracked branch with absent | ⟨n, alone⟩
  · exact .inl absent
  · refine .inr ⟨n, alone, ?_⟩
    have shown := (kept.holds branch).shows
    have head : n ∈ w.graph.heads branch := alone ▸ List.mem_singleton_self n
    have here := Lineage.Sound.nodesOf (s := ⟨[w.graph], w.cache, w.fresh⟩)
      (List.mem_singleton_self _) (kept.tracked.heads branch head)
    rw [(Cache.readsView kept.sound.identified here w.cache kept.sound.coherent).1]
    rw [alone, joinedSingle] at shown
    exact shown

theorem reloads (filled : 0 < w.store.size) (config : Config) {fresh : Nat} (later : w.fresh ≤ fresh) :
    ∃ g, Repository.load config id fresh w.store = .ok g ∧ ∀ branch, ∃ d,
      ((Cache.readDocument g [branch]).run w.cache).1 = .ok d ∧ (d == j.documents branch) = true := by
  have member := List.mem_singleton_self w.graph
  rw [Store.size, kept.stored, VersionLogs.totalExtend] at filled
  have loaded : w.store.load id = .ok (w.graph.nodes.map Node.version) := by
    rw [Store.loadOk, kept.stored]
    dsimp only
    rw [VersionLogs.getExtend (List.ne_nil_of_length_pos filled), if_pos rfl]
    rfl
  obtain ⟨g, done, same⟩ := Graph.replayed kept.tracked.ordered.placed config fresh (fresh + 1)
  have again := Graph.commitTracked (Graph.emptyTracked config fresh) done
  refine ⟨g, Repository.loadGraph loaded done, fun branch => ?_⟩
  obtain ⟨d, shown, alike⟩ := (kept.holds branch).reads
  refine ⟨d, ?_, alike⟩
  have last : g ∈ [w.graph] ++ [g] := List.mem_append_right _ (List.mem_singleton_self g)
  have answer : ((Cache.readDocument g [branch]).run w.cache).1 =
      Repository.shown (g.heads branch) :=
    ((kept.sound.load member later done).reads last rfl).1
  rw [answer, ← shown, ← Repository.readShown, ← Repository.readShown, Repository.read,
    Repository.read, (Graph.inStep again kept.tracked same).mergeBranches]

theorem shows : w.Shows id j := by
  constructor
  · intro branch
    obtain ⟨d, shown, alike⟩ := (kept.holds branch).reads
    exact ⟨d, (kept.sound.reads (List.mem_singleton_self w.graph) rfl).1.trans shown, alike⟩
  · intro filled config fresh later
    exact kept.reloads filled config later
  · exact kept.headShows
  · intro branch
    have own : ∀ n ∈ [branch].flatMap w.graph.heads, n ∈ w.graph.nodes ∧ n.branch = branch := by
      intro n head
      rw [List.flatMap_singleton] at head
      obtain ⟨leaf, named⟩ := (Graph.memHeads kept.tracked).1 head
      exact ⟨leaf.member, named⟩
    exact ⟨kept.merges branch own, fun ns one => kept.merges branch one⟩
  · rw [Store.size, kept.stored, VersionLogs.totalExtend, List.length_map]
    exact ⟨kept.counted, rfl⟩

end Kept

theorem runKept (saves : List Save) (valid : ∀ e ∈ saves, e.branch.isEmpty = false ∧
      e.document.json.Short) {w : Writer} {id : DocumentId} {j : Journal}
    {seen : List Revision} (kept : w.Kept id j seen) (distinct : (saves.map Save.revision).Nodup)
    (new : ∀ e ∈ saves, e.revision ∉ seen) :
    ∃ v seen', w.run id saves = .ok v ∧ v.Kept id (saves.foldl Journal.enter j) seen' := by
  induction saves generalizing w j seen with
  | nil => exact ⟨w, seen, rfl, kept⟩
  | cons e saves ih =>
    obtain ⟨⟨named, short⟩, rest⟩ := List.forall_mem_cons.1 valid
    obtain ⟨own, others⟩ := List.forall_mem_cons.1 new
    obtain ⟨apart, distinct⟩ := List.nodup_cons.1 distinct
    obtain ⟨v, done, next⟩ := kept.saved short named own
    obtain ⟨u, seen', run, last⟩ := ih rest next distinct fun f member listed => by
      rcases List.mem_cons.1 listed with same | old
      · exact apart (same ▸ List.mem_map_of_mem member)
      · exact others f member old
    refine ⟨u, seen', ?_, last⟩
    rw [Writer.run, List.foldlM_cons, done]
    exact run

theorem runShows (config : Config) (id : DocumentId) (saves : List Save)
    (valid : ∀ e ∈ saves, e.branch.isEmpty = false ∧ e.document.json.Short)
    (distinct : (saves.map Save.revision).Nodup) :
    ∃ w, (start config).run id saves = .ok w ∧ w.Shows id (Journal.after saves) := by
  obtain ⟨w, _, done, kept⟩ := runKept saves valid (startKept config id) distinct
    fun _ _ => List.not_mem_nil
  exact ⟨w, done, kept.shows⟩

def week : List Save :=
  [⟨defaultBranch, .object [("x", .bool true)], .ofTime 1⟩,
    ⟨"draft", .array [.bool true], .ofTime 2⟩,
    ⟨defaultBranch, .object [("x", .bool true)], .ofTime 3⟩,
    ⟨defaultBranch, .array [], .ofTime 4⟩,
    ⟨"draft", .null, .ofTime 5⟩]

theorem weekShows : ∃ w, (start {}).run (.ofNat 1) week = .ok w ∧ w.store.size = 4 ∧
    (∃ d, ((Cache.readDocument w.graph ["draft"]).run w.cache).1 = .ok d ∧
      (d == .null) = true) ∧
    ∃ g, Repository.load {} (.ofNat 1) w.fresh w.store = .ok g ∧
      ∃ d, ((Cache.readDocument g [defaultBranch]).run w.cache).1 = .ok d ∧
        (d == .array []) = true := by
  have valid : ∀ e ∈ week, e.branch.isEmpty = false ∧ e.document.json.Short := by
    decide
  obtain ⟨w, done, shows⟩ := runShows {} (.ofNat 1) week valid (by decide)
  have size : w.store.size = 4 := shows.counted.1
  obtain ⟨g, loaded, again⟩ := shows.reloads (by omega) {} w.fresh (Nat.le_refl _)
  exact ⟨w, done, size, shows.reads "draft", g, loaded, again defaultBranch⟩

end Writer
end DocHistory
