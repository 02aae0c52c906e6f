import Mathlib.Data.List.Basic
import DocHistory.Graph.Node
import DocHistory.Proofs.Past

/-! What a sweep does, whatever it fills. It touches the past of its roots only: what every fill
there preserves holds after it, and fills that agree there make the same sweep. Where fills last,
a node is filled after its parents, so fills need to agree on nodes with filled parents only. -/
namespace DocHistory.Sweep
open Node
variable {σ : Type} {isFilled : σ → Node → Bool} {fill fill' : Node → σ → σ}

theorem visitAllCons (n : Node) (ns : List Node) (s : Sweep σ) :
    visitAll isFilled fill (n :: ns) s = visitAll isFilled fill ns (visit isFilled fill n s) := rfl

theorem visitUnfold (n : Node) (s : Sweep σ) : visit isFilled fill n s =
    if isFilled s.memory n || s.visited.contains n.revision then s
    else leave isFilled fill n (visitUnfilled isFilled fill s.memory n.parents (enter n s)) := by
  cases n
  rfl

theorem visitFilled {n : Node} {s : Sweep σ} (filled : isFilled s.memory n = true) :
    visit isFilled fill n s = s := by
  rw [visitUnfold, filled, Bool.true_or, if_pos rfl]

theorem visitUnfilledFold (before : σ) (ps : List Node) (s : Sweep σ) :
    visitUnfilled isFilled fill before ps s =
      ps.foldl (fun s p => if isFilled before p then s else visit isFilled fill p s) s := by
  induction ps generalizing s with
  | nil => rfl
  | cons p ps ih => exact ih _

section Traces
variable {P : σ → List Node → Prop}

theorem leaveTraces {n : Node} {s : Sweep σ}
    (keeps : P s.memory s.filled → P (fill n s.memory) (n :: s.filled))
    (holds : P s.memory s.filled) :
    P (leave isFilled fill n s).memory (leave isFilled fill n s).filled := by
  unfold leave
  split
  · exact holds
  · exact keeps holds

theorem visitTraces {n : Node}
    (keeps : ∀ m, n.Reaches m → ∀ c ns, P c ns → P (fill m c) (m :: ns)) {s : Sweep σ}
    (holds : P s.memory s.filled) :
    P (visit isFilled fill n s).memory (visit isFilled fill n s).filled := by
  induction n using Node.induct generalizing s with
  | step n ih =>
    rw [visitUnfold]
    split
    · exact holds
    · refine leaveTraces (keeps n (reachesSelf n) _ _) ?_
      rw [visitUnfilledFold]
      refine List.foldlRecOn (motive := fun s : Sweep σ => P s.memory s.filled) _ _ holds
        fun t kept p parent => ?_
      split
      · exact kept
      · exact ih p parent (fun m path => keeps m (reachesThrough parent path)) kept

theorem visitAllTraces {ns : List Node}
    (keeps : ∀ m, Past ns m → ∀ c ms, P c ms → P (fill m c) (m :: ms)) {s : Sweep σ}
    (holds : P s.memory s.filled) :
    P (visitAll isFilled fill ns s).memory (visitAll isFilled fill ns s).filled :=
  List.foldlRecOn (motive := fun s : Sweep σ => P s.memory s.filled) _ _ holds
    fun _ kept n member => visitTraces (fun m path => keeps m ⟨n, member, path⟩) kept

theorem runTraces {roots : List Node}
    (keeps : ∀ m, Past roots m → ∀ c ms, P c ms → P (fill m c) (m :: ms)) {memory : σ}
    (holds : P memory []) :
    P (run isFilled fill roots memory).1 (run isFilled fill roots memory).2.reverse := by
  let s := visitAll isFilled fill roots { memory := memory }
  have traced : P s.memory s.filled := visitAllTraces keeps holds
  rw [← List.reverse_reverse s.filled] at traced
  exact traced

end Traces

section Keeps
variable {P : σ → Prop}

theorem leaveKeeps {n : Node} {s : Sweep σ} (keeps : P s.memory → P (fill n s.memory))
    (holds : P s.memory) : P (leave isFilled fill n s).memory :=
  leaveTraces (P := fun c _ => P c) keeps holds

theorem visitKeeps {n : Node} (keeps : ∀ m, n.Reaches m → ∀ c, P c → P (fill m c)) {s : Sweep σ}
    (holds : P s.memory) : P (visit isFilled fill n s).memory :=
  visitTraces (P := fun c _ => P c) (fun m path c _ => keeps m path c) holds

theorem visitAllKeeps {ns : List Node} (keeps : ∀ m, Past ns m → ∀ c, P c → P (fill m c))
    {s : Sweep σ} (holds : P s.memory) : P (visitAll isFilled fill ns s).memory :=
  visitAllTraces (P := fun c _ => P c) (fun m before c _ => keeps m before c) holds

theorem runKeeps {roots : List Node} (keeps : ∀ m, Past roots m → ∀ c, P c → P (fill m c))
    {memory : σ} (holds : P memory) : P (run isFilled fill roots memory).1 :=
  runTraces (P := fun c _ => P c) (fun m before c _ => keeps m before c) holds

end Keeps

theorem visitCongr {n : Node} (agree : ∀ m, n.Reaches m → fill m = fill' m) (s : Sweep σ) :
    visit isFilled fill n s = visit isFilled fill' n s := by
  induction n using Node.induct generalizing s with
  | step n ih =>
    have parents : ∀ t, visitUnfilled isFilled fill s.memory n.parents t =
        visitUnfilled isFilled fill' s.memory n.parents t := by
      intro t
      rw [visitUnfilledFold, visitUnfilledFold]
      refine List.foldl_ext _ _ _ fun t p parent => ?_
      rw [ih p parent fun m path => agree m (reachesThrough parent path)]
    rw [visitUnfold, visitUnfold, parents, leave, leave, agree n (reachesSelf n)]

theorem runCongr {roots : List Node} (agree : ∀ m, Past roots m → fill m = fill' m) (memory : σ) :
    run isFilled fill roots memory = run isFilled fill' roots memory := by
  have same : visitAll isFilled fill roots { memory := memory } =
      visitAll isFilled fill' roots { memory := memory } :=
    List.foldl_ext _ _ _ fun s n root => visitCongr (fun m path => agree m ⟨n, root, path⟩) s
  exact congrArg (fun s : Sweep σ => (s.memory, s.filled.reverse)) same

structure Lasting (isFilled : σ → Node → Bool) (fill : Node → σ → σ) : Prop where
  fills : ∀ n c, isFilled (fill n c) n = true
  keeps : ∀ n c m, isFilled c m = true → isFilled (fill n c) m = true

/-- Visited nodes are filled, but for nodes above `k`, whose visits are under way. -/
def Settled (isFilled : σ → Node → Bool) (nodes : List Node) (k : Nat) (s : Sweep σ) : Prop :=
  ∀ m ∈ nodes, s.visited.contains m.revision = true → isFilled s.memory m = true ∨ k < sizeOf m

def Fulfils (isFilled : σ → Node → Bool) (nodes : List Node) (s t : Sweep σ) : Prop :=
  ∀ m ∈ nodes, t.visited.contains m.revision = true →
    isFilled t.memory m = true ∨ s.visited.contains m.revision = true

section Order
variable {nodes : List Node} {k : Nat} {s t : Sweep σ}

theorem Settled.next (settled : Settled isFilled nodes k s)
    (lasts : ∀ m, isFilled s.memory m = true → isFilled t.memory m = true)
    (fulfils : Fulfils isFilled nodes s t) : Settled isFilled nodes k t := by
  intro m member seen
  rcases fulfils m member seen with filled | before
  · exact .inl filled
  · exact (settled m member before).imp_left (lasts m)

-- Had it been visited, it would be filled, or its own visit be under way above it.
theorem Settled.unvisited {n : Node} (settled : Settled isFilled nodes (sizeOf n) s)
    (member : n ∈ nodes) (empty : isFilled s.memory n = false) :
    s.visited.contains n.revision = false :=
  Bool.eq_false_iff.2 fun seen =>
    (settled n member seen).elim (Bool.eq_false_iff.1 empty) (Nat.lt_irrefl _)

theorem Settled.enter (history : History nodes) {n : Node} (member : n ∈ nodes)
    (settled : Settled isFilled nodes (sizeOf n) s) (less : k < sizeOf n) :
    Settled isFilled nodes k (enter n s) := by
  intro m other seen
  rcases SortedSet.containsAdd.1 seen with same | before
  · exact .inr (history.single m other n member same ▸ less)
  · exact (settled m other before).imp_right (Nat.lt_trans less)

section Lasting
variable (lasting : Lasting isFilled fill)
include lasting

theorem leaveFills (n : Node) : isFilled (leave isFilled fill n s).memory n = true := by
  unfold leave
  split
  · assumption
  · exact lasting.fills n s.memory

theorem leaveLasts {n m : Node} (filled : isFilled s.memory m = true) :
    isFilled (leave isFilled fill n s).memory m = true :=
  leaveKeeps (P := fun c => isFilled c m = true) (lasting.keeps n s.memory m) filled

theorem visitLasts {n m : Node} (filled : isFilled s.memory m = true) :
    isFilled (visit isFilled fill n s).memory m = true :=
  visitKeeps (P := fun c => isFilled c m = true) (fun k _ c => lasting.keeps k c m) filled

theorem visitAllLasts {ns : List Node} {m : Node} (filled : isFilled s.memory m = true) :
    isFilled (visitAll isFilled fill ns s).memory m = true :=
  visitAllKeeps (P := fun c => isFilled c m = true) (fun k _ c => lasting.keeps k c m) filled

theorem visitUnfilledAll {before : σ} (ps : List Node)
    (later : ∀ m, isFilled before m = true → isFilled s.memory m = true) :
    visitUnfilled isFilled fill before ps s = visitAll isFilled fill ps s := by
  induction ps generalizing s with
  | nil => rfl
  | cons p ps ih =>
    rw [visitUnfilled, visitAllCons]
    by_cases filled : isFilled before p = true
    · rw [if_pos filled, visitFilled (later p filled), ih later]
    · rw [if_neg filled, ih fun m early => visitLasts lasting (later m early)]

theorem visitNew {n : Node} (empty : isFilled s.memory n = false)
    (new : s.visited.contains n.revision = false) : visit isFilled fill n s =
      leave isFilled fill n (visitAll isFilled fill n.parents (enter n s)) := by
  have parents : visitUnfilled isFilled fill s.memory n.parents (enter n s) =
      visitAll isFilled fill n.parents (enter n s) :=
    visitUnfilledAll lasting n.parents fun _ early => early
  rw [visitUnfold, parents, empty, new, Bool.or_self, if_neg Bool.false_ne_true]

end Lasting

structure Agrees (isFilled : σ → Node → Bool) (fill fill' : Node → σ → σ) (nodes : List Node)
    (n : Node) (s : Sweep σ) : Prop where
  filled : isFilled (visit isFilled fill n s).memory n = true
  fulfils : Fulfils isFilled nodes s (visit isFilled fill n s)
  same : visit isFilled fill n s = visit isFilled fill' n s

variable (lasting : Lasting isFilled fill) (lasting' : Lasting isFilled fill')

include lasting in
theorem visitAllAgrees {ns : List Node} (settled : ∀ n ∈ ns, Settled isFilled nodes (sizeOf n) s)
    (each : ∀ n ∈ ns, ∀ t, Settled isFilled nodes (sizeOf n) t →
      Agrees isFilled fill fill' nodes n t) :
    (∀ n ∈ ns, isFilled (visitAll isFilled fill ns s).memory n = true) ∧
      Fulfils isFilled nodes s (visitAll isFilled fill ns s) ∧
      visitAll isFilled fill ns s = visitAll isFilled fill' ns s := by
  induction ns generalizing s with
  | nil => exact ⟨fun _ absent => absurd absent List.not_mem_nil, fun _ _ => .inr, rfl⟩
  | cons n ns ih =>
    have first := each n List.mem_cons_self s (settled n List.mem_cons_self)
    obtain ⟨filled, fulfils, same⟩ := ih (s := visit isFilled fill n s)
      (fun m member => (settled m (List.mem_cons_of_mem _ member)).next
        (fun _ => visitLasts lasting) first.fulfils)
      (fun m member => each m (List.mem_cons_of_mem _ member))
    rw [visitAllCons, visitAllCons, ← first.same]
    refine ⟨List.forall_mem_cons.2 ⟨visitAllLasts lasting first.filled, filled⟩, ?_, same⟩
    intro m member seen
    rcases fulfils m member seen with done | before
    · exact .inl done
    · exact (first.fulfils m member before).imp_left (visitAllLasts lasting)

variable (history : History nodes) (agree : ∀ m ∈ nodes, ∀ c,
  (∀ p ∈ m.parents, isFilled c p = true) → fill m c = fill' m c)
include lasting lasting' history agree

theorem visitAgrees {n : Node} (member : n ∈ nodes)
    (settled : Settled isFilled nodes (sizeOf n) s) : Agrees isFilled fill fill' nodes n s := by
  induction n using Node.induct generalizing s with
  | step n ih =>
    cases filled : isFilled s.memory n with
    | true =>
      constructor <;> simp only [visitFilled filled]
      · exact filled
      · exact fun _ _ => .inr
    | false =>
      have new := settled.unvisited member filled
      obtain ⟨ready, fulfils, same⟩ := visitAllAgrees lasting
        (fun p parent => settled.enter history member (parentSmaller parent))
        (fun p parent _ => ih p parent (history.closed n member p parent))
      constructor
      · rw [visitNew lasting filled new]
        exact leaveFills lasting n
      · rw [visitNew lasting filled new]
        intro m other seen
        have visited : (leave isFilled fill n
            (visitAll isFilled fill n.parents (enter n s))).visited =
            (visitAll isFilled fill n.parents (enter n s)).visited := by
          unfold leave
          split <;> rfl
        rcases fulfils m other (visited ▸ seen) with done | entered
        · exact .inl (leaveLasts lasting done)
        · rcases SortedSet.containsAdd.1 entered with equal | before
          · exact .inl (history.single m other n member equal ▸ leaveFills lasting n)
          · exact .inr before
      · rw [visitNew lasting filled new, visitNew lasting' filled new, ← same, leave, leave,
          agree n member _ ready]

theorem runAgrees {roots : List Node} (sub : roots ⊆ nodes) (memory : σ) :
    (∀ n ∈ roots, isFilled (run isFilled fill roots memory).1 n = true) ∧
      run isFilled fill roots memory = run isFilled fill' roots memory := by
  have settled : ∀ k, Settled isFilled nodes k ({ memory := memory } : Sweep σ) :=
    fun _ _ _ seen => absurd seen Bool.false_ne_true
  obtain ⟨filled, _, same⟩ := visitAllAgrees lasting (fun _ _ => settled _)
    (fun n root _ => visitAgrees lasting lasting' history agree (sub root))
  exact ⟨filled, congrArg (fun s : Sweep σ => (s.memory, s.filled.reverse)) same⟩

end Order
end DocHistory.Sweep
