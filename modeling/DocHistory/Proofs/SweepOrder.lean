import DocHistory.Proofs.Placement
import DocHistory.Proofs.ReadDepth
import DocHistory.Proofs.SweepStack

/-! The order in which a sweep fills, where a fill sets the slot of its node and no other. The
nodes filled are those that were empty and that empty nodes lead to from an empty root, each once
and after its parents: a node that was visited and is empty still is one whose visit is under way,
and no parent leads back to it. -/
namespace DocHistory.Sweep
open Node
variable {σ : Type} {isFilled : σ → Node → Bool} {fill : Node → σ → σ}

inductive Wanted (isFilled : σ → Node → Bool) (start : σ) (roots : List Node) : Node → Prop where
  | root {n : Node} (member : n ∈ roots) (empty : isFilled start n = false) :
      Wanted isFilled start roots n
  | parent {n p : Node} (child : Wanted isFilled start roots n) (parent : p ∈ n.parents)
      (empty : isFilled start p = false) : Wanted isFilled start roots p

theorem Wanted.empty {start : σ} {roots : List Node} {n : Node}
    (wanted : Wanted isFilled start roots n) : isFilled start n = false := by
  cases wanted <;> assumption

theorem Wanted.member {start : σ} {nodes roots : List Node} (history : History nodes)
    (sub : roots ⊆ nodes) {n : Node} (wanted : Wanted isFilled start roots n) : n ∈ nodes := by
  induction wanted with
  | root member _ => exact sub member
  | parent _ parent _ ih => exact history.closed _ ih _ parent

inductive Filling (isFilled : σ → Node → Bool) (fill : Node → σ → σ) (start : σ)
    (roots : List Node) : σ → List Node → Prop where
  | start : Filling isFilled fill start roots start []
  | next {c : σ} {ns : List Node} (before : Filling isFilled fill start roots c ns) {n : Node}
      (wanted : Wanted isFilled start roots n) (empty : isFilled c n = false)
      (ready : ∀ p ∈ n.parents, isFilled c p = true) :
      Filling isFilled fill start roots (fill n c) (n :: ns)

def fillAll (fill : Node → σ → σ) (ns : List Node) (c : σ) : σ := ns.foldl (fun c n => fill n c) c

section Filling
variable {start : σ} {nodes roots : List Node} (lasting : Lasting isFilled fill)
include lasting

theorem Filling.lasts {c : σ} {ns : List Node} (filling : Filling isFilled fill start roots c ns)
    {m : Node} (filled : isFilled start m = true) : isFilled c m = true := by
  induction filling with
  | start => exact filled
  | @next c _ _ n _ _ _ ih => exact lasting.keeps n c m ih

variable (history : History nodes)
include history

theorem visitAllFilling {ns : List Node} (sub : ns ⊆ nodes) {s : Sweep σ}
    (settled : ∀ n ∈ ns, Settled isFilled nodes (sizeOf n) s)
    (each : ∀ n ∈ ns, ∀ t : Sweep σ, Settled isFilled nodes (sizeOf n) t →
      Filling isFilled fill start roots t.memory t.filled →
      Filling isFilled fill start roots (visit isFilled fill n t).memory
        (visit isFilled fill n t).filled)
    (filling : Filling isFilled fill start roots s.memory s.filled) :
    Filling isFilled fill start roots (visitAll isFilled fill ns s).memory
      (visitAll isFilled fill ns s).filled := by
  induction ns generalizing s with
  | nil => exact filling
  | cons n ns ih =>
    obtain ⟨member, rest⟩ := List.cons_subset.1 sub
    obtain ⟨own, others⟩ := List.forall_mem_cons.1 settled
    obtain ⟨first, later⟩ := List.forall_mem_cons.1 each
    have visited := visitAgrees lasting lasting history (fun _ _ _ _ => rfl) member own
    exact ih rest (fun m listed => (others m listed).next (fun _ => visitLasts lasting)
      visited.fulfils) later (first s own filling)

theorem visitFilling {n : Node} (member : n ∈ nodes) {s : Sweep σ}
    (settled : Settled isFilled nodes (sizeOf n) s)
    (wanted : isFilled start n = false → Wanted isFilled start roots n)
    (filling : Filling isFilled fill start roots s.memory s.filled) :
    Filling isFilled fill start roots (visit isFilled fill n s).memory
      (visit isFilled fill n s).filled := by
  induction n using Node.induct generalizing s with
  | step n ih =>
    cases filled : isFilled s.memory n with
    | true => rwa [visitFilled filled]
    | false =>
      have new := settled.unvisited member filled
      have own : Wanted isFilled start roots n :=
        wanted (Bool.eq_false_iff.2 fun early =>
          Bool.eq_false_iff.1 filled (filling.lasts lasting early))
      have inside := fun p parent => history.closed n member p parent
      have entered := fun p parent => settled.enter history member (parentSmaller (p := p) parent)
      have traced := visitAllFilling lasting history (history.parents member) entered
        (fun p parent t settled filling =>
          ih p parent (inside p parent) settled (own.parent parent) filling) filling
      obtain ⟨ready, _⟩ := visitAllAgrees lasting entered fun p parent _ =>
        visitAgrees lasting lasting history (fun _ _ _ _ => rfl) (inside p parent)
      rw [visitNew lasting filled new, leave]
      split
      · exact traced
      · rename_i empty
        exact traced.next own (Bool.eq_false_iff.2 empty) ready

theorem rootsFilling (sub : roots ⊆ nodes) : Filling isFilled fill start roots
    (visitAll isFilled fill roots { memory := start }).memory
    (visitAll isFilled fill roots { memory := start }).filled :=
  visitAllFilling lasting history sub (fun _ _ _ _ seen => absurd seen Bool.false_ne_true)
    (fun _ root _ settled => visitFilling lasting history (sub root) settled (.root root)) .start

end Filling

structure SetsOwn (isFilled : σ → Node → Bool) (fill : Node → σ → σ) (nodes : List Node) : Prop
    extends Lasting isFilled fill where
  own : ∀ n ∈ nodes, ∀ m ∈ nodes, ∀ c, isFilled (fill n c) m = true → m = n ∨ isFilled c m = true

structure BottomUp (isFilled : σ → Node → Bool) (fill : Node → σ → σ) (start : σ)
    (roots filled : List Node) : Prop where
  once : filled.Nodup
  wanted : ∀ n, n ∈ filled ↔ Wanted isFilled start roots n
  ready : ∀ before n later, filled = before ++ n :: later →
    isFilled (fillAll fill before start) n = false ∧
    ∀ p ∈ n.parents, isFilled (fillAll fill before start) p = true

theorem fillAllSnoc (ns : List Node) (n : Node) (c : σ) :
    fillAll fill (ns ++ [n]) c = fill n (fillAll fill ns c) := List.foldl_append

section Own
variable {start c : σ} {nodes roots ns : List Node}

theorem Filling.fills (filling : Filling isFilled fill start roots c ns) :
    c = fillAll fill ns.reverse start := by
  induction filling with
  | start => rfl
  | next _ _ _ _ ih => rw [List.reverse_cons, fillAllSnoc, ← ih]

theorem Filling.wants (filling : Filling isFilled fill start roots c ns) {n : Node}
    (member : n ∈ ns) : Wanted isFilled start roots n := by
  induction filling with
  | start => exact absurd member List.not_mem_nil
  | next _ wanted _ _ ih =>
    rcases List.mem_cons.1 member with rfl | earlier
    · exact wanted
    · exact ih earlier

-- A split of the fills, the first of them first, is a moment of the sweep.
theorem Filling.moment (filling : Filling isFilled fill start roots c ns) {before later : List Node}
    {n : Node} (split : ns.reverse = before ++ n :: later) :
    isFilled (fillAll fill before start) n = false ∧
      ∀ p ∈ n.parents, isFilled (fillAll fill before start) p = true := by
  induction filling generalizing later with
  | start => simp at split
  | @next c ns earlier m _ empty ready ih =>
    rw [List.reverse_cons] at split
    rcases List.eq_nil_or_concat later with rfl | ⟨later, last, rfl⟩
    · obtain ⟨rfl, same⟩ := List.append_inj' split rfl
      obtain rfl := List.singleton_inj.1 same
      rw [← earlier.fills]
      exact ⟨empty, ready⟩
    · rw [List.concat_eq_append, ← List.cons_append, ← List.append_assoc] at split
      exact ih (List.append_inj' split rfl).1

variable (sets : SetsOwn isFilled fill nodes)
include sets

theorem Filling.parents (filling : Filling isFilled fill start roots c ns) {n p : Node}
    (member : n ∈ ns) (parent : p ∈ n.parents) : isFilled c p = true := by
  induction filling with
  | start => exact absurd member List.not_mem_nil
  | @next c ns _ m _ _ ready ih =>
    rcases List.mem_cons.1 member with rfl | earlier
    · exact sets.keeps n c p (ready p parent)
    · exact sets.keeps m c p (ih earlier)

variable (history : History nodes) (sub : roots ⊆ nodes)
include history sub

theorem Filling.filled (filling : Filling isFilled fill start roots c ns) {m : Node}
    (member : m ∈ nodes) : isFilled c m = true ↔ isFilled start m = true ∨ m ∈ ns := by
  induction filling with
  | start => simp
  | @next c ns _ n wanted _ _ ih =>
    constructor
    · intro after
      rcases sets.own n (wanted.member history sub) m member c after with rfl | before
      · exact .inr List.mem_cons_self
      · exact (ih.1 before).imp_right (List.mem_cons_of_mem n)
    · rintro (early | listed)
      · exact sets.keeps n c m (ih.2 (.inl early))
      · rcases List.mem_cons.1 listed with rfl | earlier
        · exact sets.fills m c
        · exact sets.keeps n c m (ih.2 (.inr earlier))

theorem Filling.once (filling : Filling isFilled fill start roots c ns) : ns.Nodup := by
  induction filling with
  | start => exact List.nodup_nil
  | @next c ns before n wanted empty _ ih =>
    have filled := before.filled sets history sub (wanted.member history sub)
    exact List.nodup_cons.2 ⟨fun again => Bool.eq_false_iff.1 empty (filled.2 (.inr again)), ih⟩

theorem Filling.all (filling : Filling isFilled fill start roots c ns)
    (done : ∀ n ∈ roots, isFilled c n = true) {n : Node} (wanted : Wanted isFilled start roots n) :
    n ∈ ns := by
  have listed : ∀ {m}, Wanted isFilled start roots m → isFilled c m = true → m ∈ ns := by
    intro m wanted filled
    have early := (filling.filled sets history sub (wanted.member history sub)).1 filled
    exact early.resolve_left (Bool.eq_false_iff.1 wanted.empty)
  induction wanted with
  | root member empty => exact listed (.root member empty) (done _ member)
  | parent child parent empty ih =>
    exact listed (.parent child parent empty) (filling.parents sets ih parent)

theorem Filling.bottomUp (filling : Filling isFilled fill start roots c ns)
    (done : ∀ n ∈ roots, isFilled c n = true) :
    BottomUp isFilled fill start roots ns.reverse where
  once := List.nodup_reverse.2 (filling.once sets history sub)
  wanted _ := List.mem_reverse.trans ⟨filling.wants, filling.all sets history sub done⟩
  ready _ _ _ split := filling.moment split

end Own

/-- The loop over the stack ends, whatever was filled before it, and what it did by then is to fill
the nodes that it returns, one after the other. What else the memory holds is left open: it may
well list the fills. -/
theorem fillsBottomUp {nodes roots : List Node} (history : History nodes) (sub : roots ⊆ nodes)
    (sets : SetsOwn isFilled fill nodes) (memory : σ) : ∃ filled,
      BottomUp isFilled fill memory roots filled ∧
      run isFilled fill roots memory = (fillAll fill filled memory, filled) ∧
      ∃ turns visited, (turn isFilled fill)^[turns] ⟨roots.map .visit, { memory := memory }⟩ =
        ⟨[], ⟨fillAll fill filled memory, visited, filled.reverse⟩⟩ := by
  have lasting := sets.toLasting
  let s := visitAll isFilled fill roots { memory := memory }
  have filling : Filling isFilled fill memory roots s.memory s.filled :=
    rootsFilling lasting history sub
  obtain ⟨done, -⟩ := runAgrees lasting lasting history (fun _ _ _ _ => rfl) sub memory
  have fills : s.memory = fillAll fill s.filled.reverse memory := filling.fills
  obtain ⟨turns, ends⟩ : Leads isFilled fill _ ⟨[], s⟩ := leadsVisitAll roots { memory := memory }
  refine ⟨s.filled.reverse, filling.bottomUp sets history sub done,
    congrArg (·, s.filled.reverse) fills, turns, s.visited, ?_⟩
  rw [List.reverse_reverse, ← fills]
  exact ends

theorem ancestriesOwn {nodes : List Node} (identified : Identified nodes) :
    SetsOwn Cache.hasAncestry Cache.fillAncestry nodes where
  toLasting := Cache.fillLasts Node.ancestry
  own n member m other c filled := by
    rw [Cache.hasAncestry, Cache.fillAncestry, Cache.slotsOfStore] at filled
    split at filled
    · rename_i same
      exact .inl (identified.single m other n member same.symm)
    · exact .inr filled

def diamond : Graph :=
  Graph.ofVersions [.ofChanges 1 [] [], .ofChanges 2 [1] [], .ofChanges 3 [1] [],
    .ofChanges 4 [2, 3] []]

def secondFilled : Cache := fillAll Cache.fillAncestry ((diamond.nodes.drop 1).take 1) .empty

-- The merge is asked for twice, and its first parent is filled, though the parent of that is not.
theorem diamondFilled : ∃ filled, BottomUp Cache.hasAncestry Cache.fillAncestry secondFilled
      (diamond.nodes.drop 3 ++ diamond.nodes.drop 3) filled ∧
    filled.map Node.revision = [.ofTime 1, .ofTime 3, .ofTime 4] ∧
    ∃ turns last, (turn Cache.hasAncestry Cache.fillAncestry)^[turns]
      ⟨(diamond.nodes.drop 3 ++ diamond.nodes.drop 3).map .visit, { memory := secondFilled }⟩ =
        ⟨[], last⟩ ∧ last.filled = filled.reverse := by
  have history : History diamond.nodes := (Graph.ofVersionsReachable _).history
  have apart : ∀ a ∈ diamond.nodes, ∀ b ∈ diamond.nodes, a.id = b.id → a.revision = b.revision := by
    decide
  have identified : Identified diamond.nodes :=
    ⟨history.closed, fun a first b second same =>
      history.single a first b second (apart a first b second same)⟩
  have known := List.drop_subset 3 diamond.nodes
  obtain ⟨filled, order, ran, turns, visited, ends⟩ :=
    fillsBottomUp history (List.append_subset.2 ⟨known, known⟩) (ancestriesOwn identified)
      secondFilled
  refine ⟨filled, order, ?_, turns, _, ends, rfl⟩
  obtain rfl := congrArg Prod.snd ran
  rfl

end DocHistory.Sweep
