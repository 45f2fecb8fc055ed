import Mathlib.Data.List.Basic
import Mathlib.Data.List.Chain
import Mathlib.Tactic

/-! Reports of changes of a value, each of the old and the new one. -/

namespace Lib

variable {α : Type*} {a b o n : α} {l : List (α × α)} {p : α × α}

/-- From `a` one report after the other leads to `b`. -/
def Leads : α → List (α × α) → α → Prop
  | a, [], b => a = b
  | a, p :: l, b => p.1 = a ∧ Leads p.2 l b

/-- The old value of each report is the new one of the report before. -/
def Linked (l : List (α × α)) : Prop := l.IsChain fun p q => p.2 = q.1

theorem Leads.concat (h : Leads a l o) (n : α) : Leads a (l ++ [(o, n)]) n := by
  induction l generalizing a with
  | nil => exact ⟨Eq.symm h, rfl⟩
  | cons p l ih => exact ⟨h.1, ih h.2⟩

theorem Leads.linked (h : Leads a l b) : Linked l := by
  induction l generalizing a with
  | nil => exact List.IsChain.nil
  | cons p l ih =>
    cases l with
    | nil => exact List.IsChain.singleton p
    | cons q l => exact List.IsChain.cons_cons (Eq.symm h.2.1) (ih h.2)

theorem Leads.last (h : Leads a l b) (hp : l.getLast? = some p) : p.2 = b := by
  induction l generalizing a with
  | nil => cases hp
  | cons q l ih =>
    cases l with
    | nil =>
      cases hp
      exact h.2
    | cons r l => exact ih h.2 (by rwa [List.getLast?_cons_cons] at hp)

theorem Linked.of_concat (h : Linked (l ++ [p])) : Linked l := (List.isChain_append.mp h).1

theorem Linked.old_eq (h : Linked (l ++ [(o, n)])) (hp : l.getLast? = some p) : p.2 = o :=
  (List.isChain_append.mp h).2.2 p hp (o, n) rfl

end Lib
