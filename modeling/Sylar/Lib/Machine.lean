import Mathlib.Data.List.Basic

/-! Deterministic machines: an operation is answered with an output and moves
the machine to a next state. Runs, the operations a user may issue, and the two
rules every refinement proof needs: an invariant kept by one step holds along a
run, and a relation kept by one step makes two runs answer alike. -/

namespace Lib

/-- `ok s o` says that a user may issue `o` in the state `s`. -/
structure Machine (σ ω ρ : Type*) where
  step : σ → ω → ρ × σ
  ok : σ → ω → Prop

namespace Machine

variable {σ α ω ρ : Type*}

def run (M : Machine σ ω ρ) : σ → List ω → List ρ × σ
  | s, [] => ([], s)
  | s, o :: os =>
      let r := M.step s o
      let t := M.run r.2 os
      (r.1 :: t.1, t.2)

/-- Every operation of the run is one its user may issue when its turn comes. -/
def Admissible (M : Machine σ ω ρ) : σ → List ω → Prop
  | _, [] => True
  | s, o :: os => M.ok s o ∧ M.Admissible (M.step s o).2 os

@[simp] theorem run_cons (M : Machine σ ω ρ) (s : σ) (o : ω) (os : List ω) :
    M.run s (o :: os) =
      ((M.step s o).1 :: (M.run (M.step s o).2 os).1, (M.run (M.step s o).2 os).2) := rfl

@[simp] theorem admissible_nil (M : Machine σ ω ρ) (s : σ) : M.Admissible s [] := trivial

@[simp] theorem admissible_cons (M : Machine σ ω ρ) (s : σ) (o : ω) (os : List ω) :
    M.Admissible s (o :: os) ↔ M.ok s o ∧ M.Admissible (M.step s o).2 os := Iff.rfl

instance decidableAdmissible (M : Machine σ ω ρ) [h : ∀ s o, Decidable (M.ok s o)] :
    ∀ s os, Decidable (M.Admissible s os)
  | _, [] => isTrue trivial
  | s, o :: os =>
      have := decidableAdmissible M (M.step s o).2 os
      inferInstanceAs (Decidable (M.ok s o ∧ M.Admissible (M.step s o).2 os))

theorem admissible_of_total (M : Machine σ ω ρ) (h : ∀ s o, M.ok s o) :
    ∀ os s, M.Admissible s os
  | [], _ => trivial
  | o :: os, s => ⟨h s o, M.admissible_of_total h os _⟩

theorem run_invariant (M : Machine σ ω ρ) (I : σ → Prop)
    (hstep : ∀ s o, I s → M.ok s o → I (M.step s o).2) :
    ∀ os s, I s → M.Admissible s os → I (M.run s os).2 := by
  intro os
  induction os with
  | nil => intro s hs _; exact hs
  | cons o os ih =>
    intro s hs hadm
    exact ih _ (hstep s o hs hadm.1) hadm.2

/-- The simulation rule: related states answer alike and stay related. -/
theorem run_sim (C : Machine σ ω ρ) (A : Machine α ω ρ) (R : σ → α → Prop)
    (hstep : ∀ s a o, R s a → C.ok s o →
      (C.step s o).1 = (A.step a o).1 ∧ R (C.step s o).2 (A.step a o).2) :
    ∀ os s a, R s a → C.Admissible s os →
      (C.run s os).1 = (A.run a os).1 ∧ R (C.run s os).2 (A.run a os).2 := by
  intro os
  induction os with
  | nil => intro s a hR _; exact ⟨rfl, hR⟩
  | cons o os ih =>
    intro s a hR hadm
    obtain ⟨hout, hR'⟩ := hstep s a o hR hadm.1
    obtain ⟨houts, hfin⟩ := ih _ _ hR' hadm.2
    refine ⟨?_, hfin⟩
    simp only [run_cons, hout, houts]

/-- Related machines allow the same runs when they allow the same operations. -/
theorem admissible_sim (C : Machine σ ω ρ) (A : Machine α ω ρ) (R : σ → α → Prop)
    (hok : ∀ s a o, R s a → (C.ok s o ↔ A.ok a o))
    (hstep : ∀ s a o, R s a → C.ok s o → R (C.step s o).2 (A.step a o).2) :
    ∀ os s a, R s a → (C.Admissible s os ↔ A.Admissible a os) := by
  intro os
  induction os with
  | nil => intro s a _; simp
  | cons o os ih =>
    intro s a hR
    rw [admissible_cons, admissible_cons, hok s a o hR]
    refine and_congr_right fun ho => ih _ _ (hstep s a o hR ((hok s a o hR).mpr ho))

end Machine

end Lib
