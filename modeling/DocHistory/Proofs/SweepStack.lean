import Mathlib.Logic.Function.Iterate
import DocHistory.Proofs.SweepLaws

/-! A sweep as a loop over a stack, which needs no recursion however deep the past is. An entry of
the stack asks to visit a node, or to leave it once its parents, which lie above, are dealt with.
Whatever fills do, the loop comes to its end, and it has then done what the recursion does. -/
namespace DocHistory.Sweep
variable {σ : Type} (isFilled : σ → Node → Bool) (fill : Node → σ → σ)

inductive Task where
  | visit (n : Node)
  | leave (n : Node)

structure Loop (σ : Type) where
  stack : List Task
  sweep : Sweep σ

def visits (before : σ) (ps : List Node) : List Task :=
  (ps.filter fun p => !isFilled before p).map .visit

def turn : Loop σ → Loop σ
  | ⟨[], s⟩ => ⟨[], s⟩
  | ⟨.visit n :: rest, s⟩ =>
    if isFilled s.memory n || s.visited.contains n.revision then ⟨rest, s⟩
    else ⟨visits isFilled s.memory n.parents ++ .leave n :: rest, enter n s⟩
  | ⟨.leave n :: rest, s⟩ => ⟨rest, leave isFilled fill n s⟩

def Leads (l m : Loop σ) : Prop := ∃ turns, (turn isFilled fill)^[turns] l = m

variable {isFilled fill}

theorem Leads.refl (l : Loop σ) : Leads isFilled fill l l := ⟨0, rfl⟩

theorem Leads.trans {l m k : Loop σ} (first : Leads isFilled fill l m)
    (rest : Leads isFilled fill m k) : Leads isFilled fill l k := by
  obtain ⟨i, rfl⟩ := first
  obtain ⟨j, rfl⟩ := rest
  exact ⟨j + i, Function.iterate_add_apply _ j i l⟩

theorem leadsTurn (l : Loop σ) : Leads isFilled fill l (turn isFilled fill l) := ⟨1, rfl⟩

theorem leadsUnfilled {ps : List Node} (each : ∀ p ∈ ps, ∀ (rest : List Task) (s : Sweep σ),
      Leads isFilled fill ⟨.visit p :: rest, s⟩ ⟨rest, visit isFilled fill p s⟩)
    (before : σ) (rest : List Task) (s : Sweep σ) :
    Leads isFilled fill ⟨visits isFilled before ps ++ rest, s⟩
      ⟨rest, visitUnfilled isFilled fill before ps s⟩ := by
  induction ps generalizing s with
  | nil => exact .refl _
  | cons p ps ih =>
    obtain ⟨own, others⟩ := List.forall_mem_cons.1 each
    rw [visits, List.filter_cons, visitUnfilled]
    cases isFilled before p with
    | true => exact ih others s
    | false => exact (own _ s).trans (ih others _)

theorem leadsVisit (n : Node) (rest : List Task) (s : Sweep σ) :
    Leads isFilled fill ⟨.visit n :: rest, s⟩ ⟨rest, visit isFilled fill n s⟩ := by
  induction n using Node.induct generalizing rest s with
  | step n ih =>
    have first : Leads isFilled fill ⟨.visit n :: rest, s⟩ _ := leadsTurn _
    rw [visitUnfold]
    rw [turn] at first
    split at first
    · rename_i done
      rwa [if_pos done]
    · rename_i new
      rw [if_neg new]
      exact first.trans ((leadsUnfilled ih s.memory _ _).trans (leadsTurn _))

theorem leadsVisitAll (ns : List Node) (s : Sweep σ) :
    Leads isFilled fill ⟨ns.map .visit, s⟩ ⟨[], visitAll isFilled fill ns s⟩ := by
  induction ns generalizing s with
  | nil => exact .refl _
  | cons n ns ih => exact (leadsVisit n _ s).trans (ih _)

end DocHistory.Sweep
