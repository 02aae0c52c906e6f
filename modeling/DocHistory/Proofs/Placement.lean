import Mathlib.Data.List.Nodup
import DocHistory.Graph
import DocHistory.Proofs.Past

/-! Reachable graphs keep their nodes in insertion order: sequences count from zero, no revision
occurs twice, and the parents of a node are earlier nodes of the same graph with the revisions
that its version names. Commits and views preserve this, whatever versions are committed. -/
namespace DocHistory

theorem foldKeeps {σ α ε : Type} {step : σ → α → Except ε σ} {P : σ → Prop}
    (keeps : ∀ s a t, P s → step s a = .ok t → P t) {as : List α} {s t : σ} (holds : P s)
    (done : as.foldlM step s = .ok t) : P t := by
  induction as generalizing s with
  | nil =>
    cases done
    exact holds
  | cons a as ih =>
    rw [List.foldlM_cons] at done
    cases first : step s a with
    | error e =>
      rw [first] at done
      cases done
    | ok next =>
      rw [first] at done
      exact ih (keeps s a next holds first) done

theorem mapMFound {ε κ α : Type} {f : κ → Except ε α} {f? : κ → Option α}
    (same : ∀ k a, f k = .ok a ↔ f? k = some a) {ks : List κ} {as : List α} :
    ks.mapM f = .ok as ↔ ks.map f? = as.map some := by
  induction ks generalizing as with
  | nil => cases as <;> simp [pure, Except.pure]
  | cons k ks ih =>
    rw [List.mapM_cons, List.map_cons]
    cases found : f k with
    | error e =>
      have absent : ∀ a, f? k ≠ some a := fun a h => by
        have := (same k a).2 h
        rw [found] at this
        cases this
      cases as <;> simp [bind, Except.bind, absent]
    | ok a =>
      have present := (same k a).1 found
      cases rest : ks.mapM f with
      | error e =>
        have absent : ∀ bs : List α, ks.map f? ≠ bs.map some := fun bs h => by
          have := ih.2 h
          rw [rest] at this
          cases this
        cases as <;> simp [bind, Except.bind, absent]
      | ok bs =>
        have tail := ih.1 rest
        cases as with
        | nil => simp [bind, Except.bind, pure, Except.pure]
        | cons b as =>
          simp only [bind, Except.bind, pure, Except.pure, Except.ok.injEq, List.cons.injEq,
            present, List.map_cons, Option.some.injEq, tail]
          exact and_congr_right fun _ =>
            (List.map_inj_right fun _ _ => Option.some.inj).symm

theorem keysOfFound {κ α : Type} {f? : κ → Option α} {key : α → κ}
    (keyed : ∀ k a, f? k = some a → key a = k) {ks : List κ} {as : List α}
    (found : ks.map f? = as.map some) : as.map key = ks := by
  induction ks generalizing as with
  | nil => simpa using found
  | cons k ks ih =>
    cases as with
    | nil => simp at found
    | cons a as =>
      simp only [List.map_cons, List.cons.injEq] at found
      rw [List.map_cons, keyed k a found.1, ih found.2]

theorem memOfFound {κ α : Type} {f? : κ → Option α} {ks : List κ} {as : List α}
    (found : ks.map f? = as.map some) {a : α} (member : a ∈ as) : ∃ k ∈ ks, f? k = some a := by
  have listed : some a ∈ ks.map f? := found ▸ List.mem_map_of_mem member
  exact List.mem_map.1 listed

theorem foundAll {κ α : Type} {f? : κ → Option α} {ks : List κ}
    (known : ∀ k ∈ ks, (f? k).isSome = true) : ks.map f? = (ks.filterMap f?).map some := by
  induction ks with
  | nil => rfl
  | cons k ks ih =>
    obtain ⟨a, found⟩ := Option.isSome_iff_exists.1 (known k List.mem_cons_self)
    have tail := ih fun l member => known l (List.mem_cons_of_mem _ member)
    rw [List.filterMap_cons_some found, List.map_cons, List.map_cons, found, tail]

structure Placed (nodes : List Node) : Prop where
  numbered : nodes.map Node.sequence = List.range nodes.length
  distinct : (nodes.map Node.revision).Nodup
  named : ∀ n ∈ nodes, n.parents.map Node.revision = n.version.parents.toList
  earlier : ∀ n ∈ nodes, ∀ p ∈ n.parents, p ∈ nodes ∧ p.sequence < n.sequence
  rooted : ∀ n ∈ nodes, n.version.isRoot = true → n.version.parents.isEmpty = true

namespace Placed
variable {nodes : List Node}

theorem nil : Placed [] where
  numbered := rfl
  distinct := List.nodup_nil
  named := fun _ h => absurd h List.not_mem_nil
  earlier := fun _ h => absurd h List.not_mem_nil
  rooted := fun _ h => absurd h List.not_mem_nil

theorem history (placed : Placed nodes) : History nodes where
  closed n member p parent := (placed.earlier n member p parent).1
  single _ ha _ hb same := List.inj_on_of_nodup_map placed.distinct ha hb same

theorem sequenceBound (placed : Placed nodes) {n : Node} (member : n ∈ nodes) :
    n.sequence < nodes.length := by
  have listed : n.sequence ∈ nodes.map Node.sequence := List.mem_map_of_mem member
  rw [placed.numbered] at listed
  exact List.mem_range.1 listed

theorem append (placed : Placed nodes) {n : Node} (number : n.sequence = nodes.length)
    (new : ∀ m ∈ nodes, m.revision ≠ n.revision)
    (named : n.parents.map Node.revision = n.version.parents.toList)
    (parents : ∀ p ∈ n.parents, p ∈ nodes)
    (rooted : n.version.isRoot = true → n.version.parents.isEmpty = true) :
    Placed (nodes ++ [n]) where
  numbered := by simp [placed.numbered, number, List.range_succ]
  distinct := by
    rw [List.map_append, List.nodup_append]
    refine ⟨placed.distinct, by simp, ?_⟩
    intro a ha b hb
    obtain ⟨m, member, rfl⟩ := List.mem_map.1 ha
    rw [List.map_singleton, List.mem_singleton] at hb
    exact hb ▸ new m member
  named m member := by
    rcases List.mem_append.1 member with old | last
    · exact placed.named m old
    · exact List.mem_singleton.1 last ▸ named
  earlier m member p parent := by
    rcases List.mem_append.1 member with old | last
    · have before := placed.earlier m old p parent
      exact ⟨List.mem_append_left _ before.1, before.2⟩
    · rw [List.mem_singleton.1 last] at parent ⊢
      have old := parents p parent
      exact ⟨List.mem_append_left _ old, number ▸ placed.sequenceBound old⟩
  rooted m member := by
    rcases List.mem_append.1 member with old | last
    · exact placed.rooted m old
    · exact List.mem_singleton.1 last ▸ rooted

theorem splitLast {n : Node} (placed : Placed (nodes ++ [n])) :
    Placed nodes ∧ n.sequence = nodes.length ∧ (∀ m ∈ nodes, m.revision ≠ n.revision) ∧
      n.parents ⊆ nodes := by
  have member : n ∈ nodes ++ [n] := List.mem_append_right _ (List.mem_singleton_self n)
  have numbers := placed.numbered
  rw [List.map_append, List.length_append, List.length_singleton, List.range_succ] at numbers
  obtain ⟨before, last⟩ := List.append_inj' numbers rfl
  have number : n.sequence = nodes.length := List.singleton_inj.1 last
  have below : ∀ m ∈ nodes, m.sequence < nodes.length := by
    intro m old
    have listed : m.sequence ∈ nodes.map Node.sequence := List.mem_map_of_mem old
    rw [before] at listed
    exact List.mem_range.1 listed
  -- A parent has a smaller sequence, so it is none of the nodes from its child on.
  have earlier : ∀ m ∈ nodes ++ [n], ∀ p ∈ m.parents, m.sequence ≤ nodes.length →
      p ∈ nodes ∧ p.sequence < m.sequence := by
    intro m inside p parent bound
    obtain ⟨listed, less⟩ := placed.earlier m inside p parent
    rcases List.mem_append.1 listed with old | same
    · exact ⟨old, less⟩
    · rw [List.mem_singleton.1 same, number] at less
      omega
  have revisions := placed.distinct
  rw [List.map_append, List.nodup_append] at revisions
  refine ⟨⟨before, revisions.1, ?_, ?_, ?_⟩, number, ?_, ?_⟩
  · exact fun m old => placed.named m (List.mem_append_left _ old)
  · exact fun m old p parent =>
      earlier m (List.mem_append_left _ old) p parent (Nat.le_of_lt (below m old))
  · exact fun m old => placed.rooted m (List.mem_append_left _ old)
  · exact fun m old =>
      revisions.2.2 _ (List.mem_map_of_mem old) _ (List.mem_singleton_self n.revision)
  · exact fun p parent => (earlier n member p parent (Nat.le_of_eq number)).1

theorem sequenceAt (placed : Placed nodes) {i : Nat} {n : Node} (found : nodes[i]? = some n) :
    n.sequence = i := by
  obtain ⟨inside, _⟩ := List.getElem?_eq_some_iff.1 found
  have listed : (nodes.map Node.sequence)[i]? = some n.sequence := by
    rw [List.getElem?_map, found, Option.map_some]
  rw [placed.numbered, List.getElem?_range inside] at listed
  exact (Option.some.inj listed).symm

theorem atPlace (placed : Placed nodes) {n : Node} (member : n ∈ nodes) :
    nodes[n.sequence]? = some n := by
  obtain ⟨i, found⟩ := List.mem_iff_getElem?.1 member
  exact placed.sequenceAt found ▸ found

theorem lastSequence (placed : Placed nodes) {n : Node} (last : nodes.getLast? = some n) :
    n.sequence + 1 = nodes.length := by
  have member := List.mem_of_getLast? last
  rw [List.getLast?_eq_getElem?] at last
  rw [placed.sequenceAt last]
  exact Nat.succ_pred_eq_of_pos (List.length_pos_of_mem member)

theorem versionIndex (placed : Placed nodes) {n : Node} (member : n ∈ nodes) :
    (nodes.map Node.version).findIdx (fun v => v.revision = n.revision) = n.sequence := by
  have inside : n.sequence < (nodes.map Node.version).length := by
    rw [List.length_map]
    exact placed.sequenceBound member
  refine (List.findIdx_eq inside).2 ⟨?_, fun i less => ?_⟩
  · obtain ⟨_, here⟩ := List.getElem?_eq_some_iff.1 (placed.atPlace member)
    rw [List.getElem_map, here]
    exact decide_eq_true rfl
  · have early : i < nodes.length := Nat.lt_trans less (placed.sequenceBound member)
    rw [List.getElem_map]
    refine decide_eq_false fun same => ?_
    have equal := placed.history.single _ (List.getElem_mem early) n member same
    have place := placed.sequenceAt (List.getElem?_eq_getElem early)
    rw [equal] at place
    omega

theorem cut (placed : Placed nodes) (k : Nat) :
    (nodes.filter fun n => n.sequence ≤ k) = nodes.take (k + 1) := by
  have early : (nodes.take (k + 1)).filter (fun n => n.sequence ≤ k) = nodes.take (k + 1) := by
    refine List.filter_eq_self.2 fun n member => decide_eq_true ?_
    obtain ⟨i, found⟩ := List.mem_iff_getElem?.1 member
    rw [List.getElem?_take] at found
    split at found
    · rename_i low
      exact placed.sequenceAt found ▸ Nat.le_of_lt_succ low
    · cases found
  have late : (nodes.drop (k + 1)).filter (fun n => n.sequence ≤ k) = [] := by
    refine List.filter_eq_nil_iff.2 fun n member => ?_
    obtain ⟨i, found⟩ := List.mem_iff_getElem?.1 member
    rw [List.getElem?_drop] at found
    rw [decide_eq_true_eq, placed.sequenceAt found]
    omega
  have whole := congrArg (List.filter fun n : Node => decide (n.sequence ≤ k))
    (List.take_append_drop (k + 1) nodes)
  rw [List.filter_append, early, late, List.append_nil] at whole
  exact whole.symm

theorem upTo (placed : Placed nodes) (k : Nat) :
    Placed (nodes.filter fun n => n.sequence ≤ k) where
  numbered := by
    rw [placed.cut, List.map_take, placed.numbered, List.take_range, List.length_take]
  distinct := placed.distinct.sublist (List.filter_sublist.map _)
  named n member := placed.named n (List.mem_filter.1 member).1
  earlier n member p parent := by
    obtain ⟨old, low⟩ := List.mem_filter.1 member
    obtain ⟨before, less⟩ := placed.earlier n old p parent
    have bound : n.sequence ≤ k := of_decide_eq_true low
    exact ⟨List.mem_filter.2 ⟨before, decide_eq_true (by omega)⟩, less⟩
  rooted n member := placed.rooted n (List.mem_filter.1 member).1

end Placed

namespace Graph

inductive Reachable : Graph → Prop where
  | empty (config : Config) (fresh : Nat) : Reachable (Graph.empty config fresh)
  | commit {g h : Graph} {versions : List Version} {fresh : Nat} (before : Reachable g)
      (done : g.commit versions fresh = .ok h) : Reachable h
  | view {g h : Graph} {r : Revision} {fresh : Nat} (before : Reachable g)
      (done : g.view r fresh = .ok h) : Reachable h

def upThrough (r : Revision) (log : List Version) : List Version :=
  log.take (log.findIdx (fun v => v.revision = r) + 1)

/-- Graphs grown from an empty one of the configuration, with the versions that they took in, in
the order in which they were given. A view forgets what was given after its version. -/
inductive Grown (config : Config) : Graph → List Version → Prop where
  | empty (fresh : Nat) : Grown config (Graph.empty config fresh) []
  | commit {g h : Graph} {log versions : List Version} {fresh : Nat} (before : Grown config g log)
      (done : g.commit versions fresh = .ok h) : Grown config h (log ++ versions)
  | view {g h : Graph} {log : List Version} {r : Revision} {fresh : Nat}
      (before : Grown config g log) (done : g.view r fresh = .ok h) :
      Grown config h (upThrough r log)

theorem Grown.reachable {config : Config} {g : Graph} {log : List Version}
    (grown : Grown config g log) : g.Reachable := by
  induction grown with
  | empty fresh => exact .empty config fresh
  | commit _ done before => exact .commit before done
  | view _ done before => exact .view before done

theorem memNodes {g : Graph} {n : Node} : n ∈ g.nodes ↔ ∃ layer ∈ g.layers, n ∈ layer := by
  simp [nodes]

theorem findSound {g : Graph} {r : Revision} {n : Node} (found : g.find? r = some n) :
    n ∈ g.nodes ∧ n.revision = r := by
  obtain ⟨layer, member, inLayer⟩ := List.exists_of_findSome?_eq_some found
  exact ⟨memNodes.2 ⟨layer, member, List.mem_of_find?_eq_some inLayer⟩,
    by simpa using List.find?_some inLayer⟩

theorem findNone {g : Graph} {r : Revision} :
    g.find? r = none ↔ ∀ n ∈ g.nodes, n.revision ≠ r := by
  simp only [find?, List.findSome?_eq_none_iff, List.find?_eq_none, decide_eq_true_eq, memNodes]
  exact ⟨fun h n ⟨layer, member, inLayer⟩ => h layer member n inLayer,
    fun h layer member n inLayer => h n ⟨layer, member, inLayer⟩⟩

theorem containsIff {g : Graph} {r : Revision} :
    g.contains r = true ↔ ∃ n ∈ g.nodes, n.revision = r := by
  rw [contains, Option.isSome_iff_ne_none, Ne, findNone]
  simp only [ne_eq, not_forall, not_not, exists_prop]

theorem findIff {g : Graph} (history : History g.nodes) {r : Revision} {n : Node} :
    g.find? r = some n ↔ n ∈ g.nodes ∧ n.revision = r := by
  refine ⟨findSound, fun ⟨member, same⟩ => ?_⟩
  cases found : g.find? r with
  | none => exact absurd same (findNone.1 found n member)
  | some m =>
    obtain ⟨other, revision⟩ := findSound found
    rw [history.single m other n member (revision.trans same.symm)]

theorem findOk {g : Graph} (r : Revision) (n : Node) : g.find r = .ok n ↔ g.find? r = some n := by
  unfold find
  cases g.find? r <;> simp

structure Ordered (g : Graph) : Prop where
  placed : Placed g.nodes
  counted : g.size = g.nodes.length

namespace Staging

def nodes (s : Staging) : List Node := s.base.nodes ++ s.added.reverse

def place (s : Staging) (v : Version) (parents : List Node) : Node where
  version := v
  parents := parents
  sequence := s.base.size + s.added.length
  id := s.fresh + s.added.length
  pool := s.base.pool

def push (s : Staging) (n : Node) : Staging :=
  { s with added := n :: s.added, headIndex := HeadIndex.update s.headIndex n }

theorem nodesPush (s : Staging) (n : Node) : (s.push n).nodes = s.nodes ++ [n] := by
  simp [nodes, push]

theorem findSound {s : Staging} {r : Revision} {n : Node} (found : s.find? r = some n) :
    n ∈ s.nodes ∧ n.revision = r := by
  rcases Option.or_eq_some_iff.1 found with staged | ⟨_, old⟩
  · exact ⟨List.mem_append_right _ (List.mem_reverse.2 (List.mem_of_find?_eq_some staged)),
      by simpa using List.find?_some staged⟩
  · obtain ⟨member, same⟩ := Graph.findSound old
    exact ⟨List.mem_append_left _ member, same⟩

theorem findNone {s : Staging} {r : Revision} :
    s.find? r = none ↔ ∀ n ∈ s.nodes, n.revision ≠ r := by
  simp only [find?, Option.or_eq_none_iff, Graph.findNone, List.find?_eq_none, decide_eq_true_eq,
    nodes, List.mem_append, List.mem_reverse]
  exact ⟨fun h n member => member.elim (h.2 n) (h.1 n),
    fun h => ⟨fun n member => h n (.inr member), fun n member => h n (.inl member)⟩⟩

theorem parentsOk {s : Staging} {v : Version} {ps : List Node} :
    s.parents v = .ok ps ↔ v.parents.toList.map s.find? = ps.map some := by
  apply mapMFound
  intro r n
  cases s.find? r <;> simp

theorem addOk {s t : Staging} {v : Version} :
    s.add v = .ok t ↔ ¬ (v.isRoot = true ∧ (!v.parents.isEmpty) = true) ∧
      s.find? v.revision = none ∧
      ∃ ps, v.parents.toList.map s.find? = ps.map some ∧ t = s.push (s.place v ps) := by
  unfold add
  split
  · rename_i rooted
    simp [rooted]
  · rename_i free
    split
    · rename_i taken
      simp [Option.isSome_iff_ne_none.1 taken]
    · rename_i new
      simp only [free, not_false_eq_true, true_and, Option.not_isSome_iff_eq_none.1 new,
        ← parentsOk]
      cases s.parents v with
      | error e => simp [bind, Except.bind]
      | ok ps =>
        simp only [bind, Except.bind, Except.ok.injEq, exists_eq_left']
        exact eq_comm

theorem addSucceeds {s : Staging} {v : Version}
    (rooted : v.isRoot = true → v.parents.isEmpty = true) (new : s.find? v.revision = none)
    (known : ∀ r ∈ v.parents.toList, (s.find? r).isSome = true) :
    s.add v = .ok (s.push (s.place v (v.parents.toList.filterMap s.find?))) := by
  refine addOk.2 ⟨fun refused => ?_, new, _, foundAll known, rfl⟩
  rw [rooted refused.1] at refused
  cases refused.2

structure Ordered (s : Staging) : Prop where
  placed : Placed s.nodes
  counted : s.base.size = s.base.nodes.length

theorem addOrdered {s t : Staging} {v : Version} (ordered : s.Ordered) (done : s.add v = .ok t) :
    t.Ordered := by
  obtain ⟨free, new, ps, found, rfl⟩ := addOk.1 done
  have sound : ∀ p ∈ ps, p ∈ s.nodes := by
    intro p parent
    obtain ⟨_, _, same⟩ := memOfFound found parent
    exact (findSound same).1
  constructor
  · rw [nodesPush]
    apply ordered.placed.append
    · simp [place, nodes, ordered.counted]
    · exact findNone.1 new
    · exact keysOfFound (fun _ _ same => (findSound same).2) found
    · exact sound
    · intro root
      cases empty : v.parents.isEmpty with
      | true => exact empty
      | false => exact absurd ⟨root, by rw [empty]; rfl⟩ free
  · exact ordered.counted

theorem runKeeps {P : Staging → Prop} (step : ∀ {s t v}, P s → s.add v = .ok t → P t)
    {s t : Staging} {versions : List Version} (holds : P s)
    (done : versions.foldlM Staging.add s = .ok t) : P t :=
  foldKeeps (fun _ _ _ => step) holds done

structure Named (g : Graph) (fresh : Nat) (s : Staging) : Prop where
  base : s.base = g
  start : s.fresh = fresh
  names : s.added.reverse.map Node.id = List.range' fresh s.added.length

theorem addNamed {g : Graph} {fresh : Nat} {s t : Staging} {v : Version} (named : Named g fresh s)
    (done : s.add v = .ok t) : Named g fresh t := by
  obtain ⟨_, _, ps, _, rfl⟩ := addOk.1 done
  refine ⟨named.base, named.start, ?_⟩
  simp [push, place, named.names, named.start, List.range'_1_concat]

theorem runVersions {s t : Staging} {versions : List Version}
    (done : versions.foldlM Staging.add s = .ok t) :
    t.added.reverse.map Node.version = s.added.reverse.map Node.version ++ versions := by
  induction versions generalizing s with
  | nil =>
    cases done
    exact (List.append_nil _).symm
  | cons v versions ih =>
    rw [List.foldlM_cons] at done
    cases added : s.add v with
    | error e =>
      rw [added] at done
      cases done
    | ok next =>
      rw [added] at done
      obtain ⟨_, _, ps, _, rfl⟩ := addOk.1 added
      rw [ih done]
      simp [push, place]

theorem finishNodes (s : Staging) : s.finish.nodes = s.nodes := by
  unfold finish nodes
  split
  · rename_i empty
    simp [empty]
  · rename_i tip rest added
    simp only [Graph.nodes, added]
    split <;> simp

theorem finishOrdered {s : Staging} (ordered : s.Ordered) : s.finish.Ordered where
  placed := finishNodes s ▸ ordered.placed
  counted := by
    rw [finishNodes]
    unfold finish
    split
    · rename_i empty
      simp [nodes, empty, ordered.counted]
    · simp [nodes, ordered.counted]

end Staging

theorem commitOk {g h : Graph} {versions : List Version} {fresh : Nat} :
    g.commit versions fresh = .ok h ↔
      ∃ s, versions.foldlM Staging.add { base := g, headIndex := g.headIndex, fresh } = .ok s ∧
        s.finish = h := by
  unfold commit
  cases versions.foldlM Staging.add { base := g, headIndex := g.headIndex, fresh } <;>
    simp [bind, Except.bind]

theorem commitRun {g : Graph} {versions : List Version} {fresh : Nat} {s : Staging}
    (run : versions.foldlM Staging.add { base := g, headIndex := g.headIndex, fresh } = .ok s) :
    Staging.Named g fresh s ∧ s.added.reverse.map Node.version = versions :=
  ⟨Staging.runKeeps Staging.addNamed ⟨rfl, rfl, rfl⟩ run, Staging.runVersions run⟩

theorem commitAdds {g h : Graph} {versions : List Version} {fresh : Nat}
    (done : g.commit versions fresh = .ok h) : ∃ added, h.nodes = g.nodes ++ added ∧
      added.map Node.version = versions ∧
      added.map Node.id = List.range' fresh versions.length := by
  obtain ⟨s, run, rfl⟩ := commitOk.1 done
  obtain ⟨named, taken⟩ := commitRun run
  have count : s.added.length = versions.length := by simp [← taken]
  refine ⟨s.added.reverse, ?_, taken, count ▸ named.names⟩
  rw [Staging.finishNodes, Staging.nodes, named.base]

theorem emptyOrdered (config : Config) (fresh : Nat) : (Graph.empty config fresh).Ordered where
  placed := Placed.nil
  counted := rfl

theorem commitOrdered {g h : Graph} {versions : List Version} {fresh : Nat} (ordered : g.Ordered)
    (done : g.commit versions fresh = .ok h) : h.Ordered := by
  obtain ⟨s, run, rfl⟩ := commitOk.1 done
  apply Staging.finishOrdered
  apply Staging.runKeeps Staging.addOrdered _ run
  exact ⟨by simpa [Staging.nodes] using ordered.placed, ordered.counted⟩

theorem viewOk {g h : Graph} {r : Revision} {fresh : Nat} : g.view r fresh = .ok h ↔
    ∃ n, g.find? r = some n ∧ h = if g.tip.map Node.revision = some r then g
      else ofNodes (g.nodes.filter fun m => m.sequence ≤ n.sequence) g.config g.pool fresh := by
  unfold view find
  cases g.find? r with
  | none => simp [bind, Except.bind]
  | some n =>
    simp only [bind, Except.bind, Option.some.injEq, exists_eq_left']
    split <;> simp only [Except.ok.injEq, eq_comm]

theorem viewCases {g h : Graph} {r : Revision} {fresh : Nat} (done : g.view r fresh = .ok h) :
    h = g ∨ ∃ k, h = ofNodes (g.nodes.filter fun n => n.sequence ≤ k) g.config g.pool fresh := by
  obtain ⟨n, _, same⟩ := viewOk.1 done
  split at same
  · exact .inl same
  · exact .inr ⟨n.sequence, same⟩

theorem ofNodesNodes (ns : List Node) (config : Config) (pool : Pool) (fresh : Nat) :
    (ofNodes ns config pool fresh).nodes = ns := by
  simp [ofNodes, nodes]

theorem viewOrdered {g h : Graph} {r : Revision} {fresh : Nat} (ordered : g.Ordered)
    (done : g.view r fresh = .ok h) : h.Ordered := by
  rcases viewCases done with rfl | ⟨k, rfl⟩
  · exact ordered
  · constructor <;> rw [ofNodesNodes]
    · exact ordered.placed.upTo k
    · rfl

theorem viewSubset {g h : Graph} {r : Revision} {fresh : Nat} (done : g.view r fresh = .ok h) :
    h.nodes ⊆ g.nodes := by
  rcases viewCases done with rfl | ⟨k, rfl⟩
  · exact List.Subset.refl _
  · rw [ofNodesNodes]
    exact List.filter_subset_self _

theorem Reachable.ordered {g : Graph} (reachable : g.Reachable) : g.Ordered := by
  induction reachable with
  | empty config fresh => exact emptyOrdered config fresh
  | commit _ done ih => exact commitOrdered ih done
  | view _ done ih => exact viewOrdered ih done

theorem Reachable.history {g : Graph} (reachable : g.Reachable) : History g.nodes :=
  reachable.ordered.placed.history

def chosen (g : Graph) (revisions : List Revision) : List Node := revisions.filterMap g.find?

theorem memChosen {g : Graph} {revisions : List Revision} {n : Node} :
    n ∈ g.chosen revisions ↔ ∃ r ∈ revisions, g.find? r = some n :=
  List.mem_filterMap

theorem foundSubset {g : Graph} {revisions : List Revision} {ns : List Node}
    (found : revisions.mapM g.find = .ok ns) : ns ⊆ g.nodes := by
  intro n member
  obtain ⟨_, _, same⟩ := memOfFound ((mapMFound findOk).1 found) member
  exact (findSound same).1

theorem chosenSubset (g : Graph) (revisions : List Revision) : g.chosen revisions ⊆ g.nodes := by
  intro n member
  obtain ⟨_, _, found⟩ := memChosen.1 member
  exact (findSound found).1

theorem chosenAll {g : Graph} {revisions : List Revision}
    (known : ∀ r ∈ revisions, g.contains r = true) :
    revisions.mapM g.find = .ok (g.chosen revisions) :=
  (mapMFound findOk).2 (foundAll known)

def Accepted (versions : List Version) : Prop :=
  ((Graph.empty {} 0).commit versions 0).toOption.isSome = true

def ofVersions (versions : List Version) (accepted : Accepted versions := by rfl) : Graph :=
  ((Graph.empty {} 0).commit versions 0).toOption.get accepted

theorem okGet {ε α : Type} {x : Except ε α} (done : x.toOption.isSome = true) :
    x = .ok (x.toOption.get done) := by
  cases x with
  | error e => cases done
  | ok a => rfl

theorem ofVersionsGrown (versions : List Version) {accepted : Accepted versions} :
    ∃ log, Grown {} (ofVersions versions accepted) log :=
  ⟨_, .commit (.empty 0) (okGet accepted)⟩

theorem ofVersionsReachable (versions : List Version) {accepted : Accepted versions} :
    (ofVersions versions accepted).Reachable := by
  obtain ⟨_, grown⟩ := ofVersionsGrown versions
  exact grown.reachable

end Graph

def Path.ofName (name : String) : Path := ⟨[.property name]⟩

def Revision.ofTime (time : UInt64) : Revision := ⟨time, 0, 0⟩

def Version.ofChanges (time : UInt64) (parents : List UInt64)
    (changes : List (Path × Option Value)) : Version where
  revision := .ofTime time
  parents := SortedSet.ofList (parents.map Revision.ofTime)
  branch := defaultBranch
  kind := .normal
  changeset := SortedMap.ofList changes

/-- The third and the fourth version have the first write in their past. The third, which merges it
with a winner, carries it; the fourth still holds it. -/
def Graph.twiceSeen : Graph :=
  ofVersions [.ofChanges 1 [] [(.ofName "x", some .null)],
    .ofChanges 2 [] [(.ofName "x", some (.bool true))], .ofChanges 3 [1, 2] [],
    .ofChanges 4 [1] []]

end DocHistory
