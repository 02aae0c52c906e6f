import DocHistory.Proofs.Lineage

/-! A lineage answers as its ledger does. The invariant: what graphs keep agrees with their nodes,
nodes are told apart by identities below the next one, and the cache is coherent. Every call
preserves it, so the answers of a run depend on no configuration. -/
namespace DocHistory
open Node

section Answers
variable {nodes : List Node} (identified : Identified nodes)
include identified

theorem GraphQuery.asks {g : Graph} (tracked : g.Tracked) (sub : g.nodes ⊆ nodes)
    (query : GraphQuery) : Cache.Reads nodes (query.ask g) (query.tell g.chronicle) := by
  cases query with
  | size => exact Cache.readsEqual (congrArg Answer.number (Graph.chronicleSize tracked))
  | tip => exact Cache.readsEqual (congrArg Answer.node (Graph.chronicleTip tracked))
  | nodes => exact Cache.readsPure _
  | branches => exact Cache.readsEqual (congrArg Answer.texts (Graph.chronicleBranches tracked))
  | contains r => exact Cache.readsEqual (congrArg Answer.flag (Graph.chronicleContains tracked r))
  | find r =>
    rw [ask, tell, ← Graph.chronicleFound tracked]
    cases g.find r <;> exact Cache.readsPure _
  | heads branch =>
    exact Cache.readsEqual (congrArg Answer.nodes (Graph.chronicleHeads tracked branch))
  | frontier branch =>
    rw [tell, ← Graph.chronicleFrontier tracked]
    exact Cache.readsBind (Cache.readsFrontier identified sub branch) (Cache.readsPure _)
  | mergeRevisions revisions =>
    rw [tell, ← Graph.chronicleMergeRevisions tracked]
    exact Cache.readsBind (Cache.readsMergeRevisions identified sub revisions) (Cache.readsPure _)
  | mergeBranches names =>
    rw [tell, ← Graph.chronicleMergeBranches tracked]
    exact Cache.readsBind (Cache.readsMergeBranches identified sub tracked.heads names)
      (Cache.readsPure _)

theorem NodeQuery.asks {n : Node} (member : n ∈ nodes) (query : NodeQuery) :
    Cache.Reads nodes (query.ask n) (query.tell n.unpooled) := by
  have ancestry := Cache.readsAncestry identified member
  have view := Cache.readsView identified member
  rw [unpooled, tellBare]
  cases query
  case ancestry => exact Cache.readsBind ancestry (Cache.readsPure _)
  case descendsFrom r =>
    exact Cache.readsBind (Cache.readsDescends identified member r) (Cache.readsPure _)
  all_goals exact Cache.readsBind view (Cache.readsPure _)

end Answers

namespace Change
variable {g h : Graph} {fresh : Nat} {change : Change}

theorem enters (tracked : g.Tracked) (change : Change) (fresh : Nat) :
    (change.apply g fresh).map Graph.chronicle = change.enter g.chronicle fresh := by
  cases change with
  | commit versions => exact Graph.chronicleCommit tracked versions fresh
  | view r => exact Graph.chronicleView tracked r fresh

theorem tracks (tracked : g.Tracked) (done : change.apply g fresh = .ok h) : h.Tracked := by
  cases change with
  | commit versions => exact Graph.commitTracked tracked done
  | view r => exact Graph.viewTracked tracked done

structure Grows (g h : Graph) (fresh names : Nat) : Prop where
  added : ∀ n ∈ h.nodes, n ∈ g.nodes ∨ fresh ≤ n.id ∧ n.id < fresh + names
  single : ∀ a ∈ h.nodes, ∀ b ∈ h.nodes, fresh ≤ a.id → a.id = b.id → a = b

theorem grows (below : ∀ n ∈ g.nodes, n.id < fresh) (done : change.apply g fresh = .ok h) :
    Grows g h fresh change.names := by
  cases change with
  | commit versions =>
    obtain ⟨added, nodes, _, names⟩ := Graph.commitAdds done
    have new : ∀ n ∈ added, fresh ≤ n.id ∧ n.id < fresh + versions.length := by
      intro n member
      have listed := List.mem_map_of_mem (f := Node.id) member
      rwa [names, List.mem_range'_1] at listed
    have fromAdded : ∀ n ∈ h.nodes, fresh ≤ n.id → n ∈ added := by
      intro n member late
      rw [nodes] at member
      rcases List.mem_append.1 member with old | recent
      · exact absurd (below n old) (Nat.not_lt.2 late)
      · exact recent
    constructor
    · intro n member
      rw [nodes] at member
      exact (List.mem_append.1 member).imp_right (new n)
    · intro a ha b hb late same
      have distinct : (added.map Node.id).Nodup := names ▸ List.nodup_range'
      have late' : fresh ≤ b.id := same ▸ late
      exact List.inj_on_of_nodup_map distinct (fromAdded a ha late) (fromAdded b hb late') same
  | view r =>
    have sub := Graph.viewSubset done
    constructor
    · exact fun n member => .inl (sub member)
    · exact fun a ha _ _ late _ => absurd (below a (sub ha)) (Nat.not_lt.2 late)

end Change

namespace Lineage

def nodes (s : Lineage) : List Node := s.graphs.flatMap Graph.nodes

def ledger (s : Lineage) : Ledger := ⟨s.graphs.map Graph.chronicle, s.fresh⟩

structure Sound (s : Lineage) : Prop where
  tracked : ∀ g ∈ s.graphs, g.Tracked
  single : ∀ a ∈ s.nodes, ∀ b ∈ s.nodes, a.id = b.id → a = b
  below : ∀ n ∈ s.nodes, n.id < s.fresh
  coherent : Cache.Coherent s.nodes s.cache

namespace Sound
variable {s : Lineage} (sound : s.Sound)
include sound

theorem identified : Identified s.nodes where
  closed n member p parent := by
    obtain ⟨g, graph, inside⟩ := List.mem_flatMap.1 member
    have old := ((sound.tracked g graph).ordered.placed.earlier n inside p parent).1
    exact List.mem_flatMap.2 ⟨g, graph, old⟩
  single := sound.single

omit sound in
theorem nodesOf {g : Graph} (member : g ∈ s.graphs) : g.nodes ⊆ s.nodes :=
  fun _ inside => List.mem_flatMap.2 ⟨g, member, inside⟩

omit sound in
theorem graphAt (i : Nat) : s.ledger.chronicles[i]? = s.graphs[i]?.map Graph.chronicle :=
  List.getElem?_map

theorem located (place : Nat × Revision) :
    (s.locate place).map unpooled = s.ledger.locate place := by
  rw [locate, Ledger.locate, graphAt]
  cases found : s.graphs[place.1]? with
  | none => rfl
  | some g =>
    rw [Option.map_some]
    dsimp only
    rw [← Graph.chronicleFound (sound.tracked g (List.mem_of_getElem? found))]
    cases g.find place.2 <;> rfl

theorem locatedAll (places : List (Nat × Revision)) :
    (places.mapM s.locate).map (List.map unpooled) = places.mapM s.ledger.locate := by
  rw [mapMMap]
  exact congrArg (places.mapM ·) (funext sound.located)

omit sound in
theorem locatedNode {place : Nat × Revision} {n : Node} (found : s.locate place = .ok n) :
    n ∈ s.nodes := by
  unfold locate at found
  split at found
  · cases found
  · rename_i g listed
    cases held : g.find place.2 with
    | error e =>
      rw [held] at found
      cases found
    | ok m =>
      rw [held] at found
      cases found
      exact nodesOf (List.mem_of_getElem? listed) (Graph.findSound ((Graph.findOk _ _).1 held)).1

omit sound in
theorem locatedNodes {places : List (Nat × Revision)} {ns : List Node}
    (found : places.mapM s.locate = .ok ns) : ns ⊆ s.nodes := by
  have same : ∀ place n, s.locate place = .ok n ↔ (s.locate place).toOption = some n := by
    intro place n
    cases s.locate place <;> simp [Except.toOption]
  intro n member
  obtain ⟨place, _, held⟩ := memOfFound ((mapMFound same).1 found) member
  exact locatedNode ((same place n).2 held)

theorem responds {query : Query} (shown : (Call.ask query).isReport = false) :
    Cache.Reads s.nodes (s.respond query) (s.ledger.tell query) := by
  cases query with
  | graph i query =>
    rw [respond, Ledger.tell, graphAt]
    cases found : s.graphs[i]? with
    | none => exact Cache.readsPure _
    | some g =>
      have member := List.mem_of_getElem? found
      exact query.asks sound.identified (sound.tracked g member) (nodesOf member)
  | node i r query =>
    rw [respond, Ledger.tell, ← sound.located]
    cases found : s.locate (i, r) with
    | error a => exact Cache.readsPure _
    | ok n => exact query.asks sound.identified (locatedNode found)
  | sameGraph i j =>
    rw [respond, Ledger.tell, graphAt, graphAt]
    cases s.graphs[i]? <;> cases s.graphs[j]? <;> exact Cache.readsPure _
  | sameNode i j r =>
    rw [respond, Ledger.tell, ← sound.located, ← sound.located]
    cases s.locate (i, r) <;> cases s.locate (j, r)
    case ok.ok n m =>
      have names : ∀ k : Node, k.unpooled.id = k.id := fun k => by rw [unpooled, bareUnfold]
      simp only [Except.map, names]
      exact Cache.readsPure _
    all_goals exact Cache.readsPure _
  | merge places =>
    rw [respond, Ledger.tell, ← sound.locatedAll]
    cases found : places.mapM s.locate with
    | error a => exact Cache.readsPure _
    | ok ns =>
      have merged : Merge.ofNodes (ns.map unpooled) = Merge.ofNodes ns := Merge.ofNodesBare _ ns
      simp only [Except.map, merged]
      exact Cache.readsBind (Cache.readsMerge sound.identified (locatedNodes found))
        (Cache.readsPure _)
  | evictGraph i =>
    rw [respond, Ledger.tell, graphAt]
    cases s.graphs[i]? with
    | none => exact Cache.readsPure _
    | some g =>
      exact Cache.yieldsBind (Cache.yieldsModify fun c kept => kept.evictAll g.nodes)
        fun _ _ => Cache.readsPure _
  | evictNode i r =>
    rw [respond, Ledger.tell, ← sound.located]
    cases s.locate (i, r) with
    | error a => exact Cache.readsPure _
    | ok n =>
      exact Cache.yieldsBind (Cache.yieldsModify fun c kept => kept.evict n)
        fun _ _ => Cache.readsPure _
  | report i what => cases shown

theorem keeps (query : Query) : Cache.Yields s.nodes (s.respond query) fun _ => True := by
  cases shown : (Call.ask query).isReport with
  | false => exact fun c coherent => ⟨trivial, (sound.responds shown c coherent).2⟩
  | true =>
    cases query <;> cases shown
    rename_i i what
    rw [respond]
    cases s.graphs[i]? with
    | none => exact fun _ coherent => ⟨trivial, coherent⟩
    | some g => exact fun _ coherent => ⟨trivial, coherent⟩

theorem grow {g h : Graph} {names : Nat} (member : g ∈ s.graphs) (tracked : h.Tracked)
    (grows : Change.Grows g h s.fresh names) :
    Sound { s with graphs := s.graphs ++ [h], fresh := s.fresh + names } := by
  have all : ({ s with graphs := s.graphs ++ [h], fresh := s.fresh + names } : Lineage).nodes =
      s.nodes ++ h.nodes := by
    simp [nodes]
  have known : ∀ n ∈ h.nodes, n ∈ s.nodes ∨ s.fresh ≤ n.id ∧ n.id < s.fresh + names :=
    fun n inside => (grows.added n inside).imp_left fun old => nodesOf member old
  -- Only what is taken over from `g` can share an identity with what was there before.
  have mixed : ∀ a ∈ s.nodes, ∀ b ∈ h.nodes, a.id = b.id → a = b := by
    intro a ha b hb same
    rcases known b hb with old | new
    · exact sound.single a ha b old same
    · exact absurd (sound.below a ha) (by omega)
  constructor
  · intro k listed
    rcases List.mem_append.1 listed with old | last
    · exact sound.tracked k old
    · exact List.mem_singleton.1 last ▸ tracked
  · rw [all]
    intro a ha b hb same
    rcases List.mem_append.1 ha with first | second <;>
      rcases List.mem_append.1 hb with third | fourth
    · exact sound.single a first b third same
    · exact mixed a first b fourth same
    · exact (mixed b third a second same.symm).symm
    · rcases known a second with old | new
      · exact mixed a old b fourth same
      · exact grows.single a second b fourth new.1 same
  · rw [all]
    intro n listed
    rcases List.mem_append.1 listed with old | new
    · exact Nat.lt_add_right _ (sound.below n old)
    · rcases known n new with old | bounds
      · exact Nat.lt_add_right _ (sound.below n old)
      · exact bounds.2
  · rw [all]
    exact sound.coherent.mono (List.subset_append_left _ _)

theorem stepSound (call : Call) : (s.step call).2.Sound := by
  cases call with
  | ask query =>
    exact ⟨sound.tracked, sound.single, sound.below, (sound.keeps query _ sound.coherent).2⟩
  | make i change =>
    rw [step]
    cases found : s.graphs[i]? with
    | none => exact sound
    | some g =>
      have member := List.mem_of_getElem? found
      dsimp only
      cases done : change.apply g s.fresh with
      | error e => exact sound
      | ok h =>
        have below : ∀ n ∈ g.nodes, n.id < s.fresh := fun n inside =>
          sound.below n (nodesOf member inside)
        exact sound.grow member (Change.tracks (sound.tracked g member) done)
          (Change.grows below done)

theorem stepLedger (call : Call) : (s.step call).2.ledger = (s.ledger.step call).2 ∧
    (call.isReport = false → (s.step call).1 = (s.ledger.step call).1) := by
  cases call with
  | ask query => exact ⟨rfl, fun shown => (sound.responds shown _ sound.coherent).1⟩
  | make i change =>
    rw [step, Ledger.step, graphAt]
    cases found : s.graphs[i]? with
    | none => exact ⟨rfl, fun _ => rfl⟩
    | some g =>
      rw [Option.map_some]
      dsimp only
      have entered := Change.enters (sound.tracked g (List.mem_of_getElem? found)) change s.fresh
      rw [show s.ledger.fresh = s.fresh from rfl, ← entered]
      cases change.apply g s.fresh with
      | error e => exact ⟨rfl, fun _ => rfl⟩
      | ok h => exact ⟨by simp [ledger, Except.map], fun _ => rfl⟩

theorem after (calls : List Call) : (s.after calls).Sound := by
  induction calls generalizing s with
  | nil => exact sound
  | cons call calls ih => exact ih (sound.stepSound call)

theorem answers {calls : List Call} {i : Nat} {call : Call} (called : calls[i]? = some call)
    (shown : call.isReport = false) : ∃ answer,
      (s.answers calls)[i]? = some answer ∧ (s.ledger.answers calls)[i]? = some answer := by
  induction calls generalizing s i with
  | nil => cases called
  | cons first calls ih =>
    obtain ⟨next, same⟩ := sound.stepLedger first
    rw [Lineage.answers, Ledger.answers, ← next]
    cases i with
    | zero =>
      cases called
      exact ⟨_, rfl, congrArg some (same shown).symm⟩
    | succ i => exact ih (sound.stepSound first) called

end Sound

theorem startSound (config : Config) : (start config).Sound where
  tracked _ member := List.mem_singleton.1 member ▸ Graph.emptyTracked config 0
  single _ ha := absurd ha List.not_mem_nil
  below _ member := absurd member List.not_mem_nil
  coherent := Cache.Coherent.empty _

structure Faithful (s : Lineage) : Prop where
  ancestry : ∀ n ∈ s.nodes, ((Cache.ancestry n).run s.cache).1 = n.ancestry
  view : ∀ n ∈ s.nodes, ((Cache.view n).run s.cache).1 = n.resolution
  merge : ∀ ns ⊆ s.nodes, ((Cache.merge ns).run s.cache).1 = Merge.ofNodes ns

theorem Sound.faithful {s : Lineage} (sound : s.Sound) : s.Faithful where
  ancestry _ member := (Cache.readsAncestry sound.identified member _ sound.coherent).1
  view _ member := (Cache.readsView sound.identified member _ sound.coherent).1
  merge _ sub := (Cache.readsMerge sound.identified sub _ sound.coherent).1

/-- From any cache at all, reads are over before it matters how they would go on: an ancestry does
not read those of the parents, a view reads no more generations than the node's place. -/
structure ReadsEnd (s : Lineage) : Prop where
  ancestry : ∀ n ∈ s.nodes, ∀ last, Cache.ancestryOr last n = Cache.ancestry n
  view : ∀ n ∈ s.nodes, ∀ last depth, n.sequence < depth →
    Cache.viewOver last depth n = Cache.view n

theorem Sound.readsEnd {s : Lineage} (sound : s.Sound) : s.ReadsEnd := by
  have placed : ∀ n ∈ s.nodes, ∃ ns, Placed ns ∧ n ∈ ns := by
    intro n member
    obtain ⟨g, graph, inside⟩ := List.mem_flatMap.1 member
    exact ⟨g.nodes, (sound.tracked g graph).ordered.placed, inside⟩
  constructor
  · intro n member last
    obtain ⟨ns, placed, inside⟩ := placed n member
    exact Cache.ancestryReadEnds placed.history inside last
  · intro n member last depth deep
    obtain ⟨ns, placed, inside⟩ := placed n member
    exact Cache.viewReadEnds placed inside last deep

theorem cachesInvisible (a b : Config) (calls : List Call) :
    (∀ (i : Nat) (call : Call), calls[i]? = some call → call.isReport = false → ∃ answer,
      ((start a).answers calls)[i]? = some answer ∧ ((start b).answers calls)[i]? = some answer ∧
      (Ledger.start.answers calls)[i]? = some answer) ∧
    ((start a).after calls).Faithful ∧ ((start a).after calls).ReadsEnd := by
  have sound := (startSound a).after calls
  refine ⟨fun i call called shown => ?_, sound.faithful, sound.readsEnd⟩
  obtain ⟨answer, first, told⟩ := (startSound a).answers called shown
  obtain ⟨other, second, same⟩ := (startSound b).answers called shown
  have equal : other = answer := Option.some.inj (same.symm.trans told)
  exact ⟨answer, first, equal ▸ second, told⟩

/-- The merge of two heads, read twice: without layers and with a pool for one node, the second
reading finds hardly anything that the first derived. -/
def mergedTwice : List Call :=
  [.make 0 (.commit [.ofChanges 1 [] [(.ofName "x", some .null)]]),
    .make 1 (.commit [.ofChanges 2 [1] [(.ofName "x", some (.bool true))],
      .ofChanges 3 [1] [(.ofName "x", some (.bool false))]]),
    .ask (.graph 2 (.mergeRevisions [.ofTime 2, .ofTime 3])),
    .ask (.evictNode 2 (.ofTime 1)),
    .ask (.graph 2 (.mergeRevisions [.ofTime 2, .ofTime 3]))]

theorem mergedTwiceSame : ∃ m, m.conflictsAt (.ofName "x") = [⟨.ofTime 2, some (.bool true)⟩] ∧
    (∀ i ∈ [2, 4], ((start ⟨0, 1⟩).answers mergedTwice)[i]? = some (.merge m) ∧
      ((start ⟨32, 0⟩).answers mergedTwice)[i]? = some (.merge m)) ∧
    ∃ n ∈ ((start ⟨0, 1⟩).after (mergedTwice.take 2)).nodes, n.revision = .ofTime 3 ∧
      Cache.viewOver (fun _ => pure {}) 3 n = Cache.view n := by
  have same := (cachesInvisible ⟨0, 1⟩ ⟨32, 0⟩ mergedTwice).1
  have ends := (cachesInvisible ⟨0, 1⟩ ⟨32, 0⟩ (mergedTwice.take 2)).2.2
  have told : ∃ m : Merge, (Ledger.start.answers mergedTwice)[2]? = some (.merge m) ∧
      (Ledger.start.answers mergedTwice)[4]? = some (.merge m) ∧
      m.conflictsAt (.ofName "x") = [⟨.ofTime 2, some (.bool true)⟩] := ⟨_, rfl, rfl, rfl⟩
  obtain ⟨m, early, late, listed⟩ := told
  have answered : ∀ (i : Nat) (call : Call), mergedTwice[i]? = some call → call.isReport = false →
      (Ledger.start.answers mergedTwice)[i]? = some (.merge m) →
      ((start ⟨0, 1⟩).answers mergedTwice)[i]? = some (.merge m) ∧
      ((start ⟨32, 0⟩).answers mergedTwice)[i]? = some (.merge m) := by
    intro i call called shown told
    obtain ⟨answer, first, second, equal⟩ := same i call called shown
    obtain rfl := Option.some.inj (equal.symm.trans told)
    exact ⟨first, second⟩
  refine ⟨m, listed, ?_, ?_⟩
  · intro i member
    rcases List.mem_pair.1 member with rfl | rfl
    · exact answered 2 _ rfl rfl early
    · exact answered 4 _ rfl rfl late
  · let n : Node := ((start ⟨0, 1⟩).after (mergedTwice.take 2)).nodes.getLast (by decide)
    have member : n ∈ ((start ⟨0, 1⟩).after (mergedTwice.take 2)).nodes := List.getLast_mem _
    exact ⟨n, member, rfl, ends.view n member _ 3 (by decide)⟩

end Lineage
end DocHistory
