import Sylar.Lib.Machine
import Mathlib.Logic.Function.Basic

/-! Copies of one component side by side. An operation is for one of them or for each in turn, and
all share a register (their statistics, say) that a copy finds as the last one left it. Where a copy
alone refines a machine and does not go by the register, each copy of a whole run refines that machine
under the operations that reached it, whatever the others were asked. -/

namespace Lib

/-- `enter e s` is the copy `s` with the register as it stands, `leave s` what `s` leaves in it. -/
structure Shards (σ ε ω φ ρ : Type) where
  step : σ → ω → Except φ (ρ × σ)
  enter : ε → σ → σ
  leave : σ → ε

namespace Shards

variable {ι σ ε ω φ ρ α : Type} [DecidableEq ι]

/-- For one copy, or for each. -/
inductive Op (ι ω : Type) where
  | one (i : ι) (o : ω)
  | all (o : ω)

def mine (i : ι) : Op ι ω → Option ω
  | .one j o => if j = i then some o else none
  | .all o => some o

def one (S : Shards σ ε ω φ ρ) (i : ι) (o : ω) (s : (ι → σ) × ε) : Except φ (ρ × (ι → σ) × ε) := do
  let (r, c) ← S.step (S.enter s.2 (s.1 i)) o
  .ok (r, Function.update s.1 i c, S.leave c)

/-- The copies `is` in turn, with what each answers. -/
def all (S : Shards σ ε ω φ ρ) (o : ω) : List ι → (ι → σ) × ε → Except φ (List ρ × (ι → σ) × ε)
  | [], s => .ok ([], s)
  | i :: is, s => do
      let (r, s) ← S.one i o s
      let (rs, s) ← S.all o is s
      .ok (r :: rs, s)

/-- A copy answers as `A` does, and the register does not matter. -/
structure Refines (S : Shards σ ε ω φ ρ) (A : Machine α ω ρ) (R : σ → α → Prop) : Prop where
  step : ∀ {c a o}, R c a → A.ok a o → ∃ c', S.step c o = .ok ((A.step a o).1, c') ∧ R c' (A.step a o).2
  enter : ∀ {c a}, R c a → ∀ e, R (S.enter e c) a

variable {S : Shards σ ε ω φ ρ} {A : Machine α ω ρ} {R : σ → α → Prop} {s : (ι → σ) × ε} {a : ι → α}

theorem Refines.one (h : Refines S A R) (hs : ∀ i, R (s.1 i) (a i)) {i : ι} {o : ω} (hok : A.ok (a i) o) :
    ∃ s', S.one i o s = .ok ((A.step (a i) o).1, s') ∧
      ∀ j, R (s'.1 j) (Function.update a i (A.step (a i) o).2 j) := by
  obtain ⟨c', hstep, hc'⟩ := h.step (h.enter (hs i) s.2) hok
  refine ⟨(Function.update s.1 i c', S.leave c'), by rw [Shards.one, hstep]; rfl, fun j => ?_⟩
  by_cases hj : j = i
  · subst hj
    simpa only [Function.update_self] using hc'
  · simpa only [Function.update_of_ne hj] using hs j

theorem Refines.all (h : Refines S A R) (o : ω) (is : List ι) : ∀ {s : (ι → σ) × ε} {a : ι → α},
    is.Nodup → (∀ i, R (s.1 i) (a i)) → (∀ i ∈ is, A.ok (a i) o) →
    ∃ s', S.all o is s = .ok (is.map fun i => (A.step (a i) o).1, s') ∧
      ∀ j, R (s'.1 j) (if j ∈ is then (A.step (a j) o).2 else a j) := by
  induction is with
  | nil =>
    intro s a _ hs _
    exact ⟨s, rfl, fun j => by simpa using hs j⟩
  | cons i is ih =>
    intro s a hnodup hs hok
    obtain ⟨hi, hnodup⟩ := List.nodup_cons.mp hnodup
    obtain ⟨s₁, hone, hs₁⟩ := h.one hs (hok i List.mem_cons_self)
    have hne : ∀ j ∈ is, j ≠ i := fun j hj heq => hi (heq ▸ hj)
    have hupdate : ∀ j ∈ is, Function.update a i (A.step (a i) o).2 j = a j := fun j hj =>
      Function.update_of_ne (hne j hj) _ _
    obtain ⟨s', hall, hs'⟩ := ih hnodup hs₁ fun j hj => by
      rw [hupdate j hj]
      exact hok j (List.mem_cons_of_mem i hj)
    refine ⟨s', ?_, fun j => ?_⟩
    · rw [Shards.all, hone]
      simp only [Except.bind, bind]
      rw [hall, List.map_cons]
      simp only
      rw [List.map_congr_left fun j hj => by rw [hupdate j hj]]
    · have hj := hs' j
      by_cases hji : j = i
      · subst hji
        simpa [hi] using hj
      · simpa [Function.update_of_ne hji, hji] using hj

/-- What the copies of `A` stand at after `ops`. -/
def stand (A : Machine α ω ρ) (a : ι → α) (ops : List (Op ι ω)) (i : ι) : α :=
  (A.run (a i) (ops.filterMap (mine i))).2

omit [DecidableEq ι] in
theorem run_append (A : Machine α ω ρ) (os os' : List ω) : ∀ b : α,
    (A.run b (os ++ os')).2 = (A.run (A.run b os).2 os').2 := by
  induction os with
  | nil => exact fun b => rfl
  | cons o os ih => exact fun b => ih _

/-- What an operation makes of the copies of `A`. -/
def turn (A : Machine α ω ρ) (b : ι → α) : Op ι ω → ι → α
  | .one i o => Function.update b i (A.step (b i) o).2
  | .all o => fun i => (A.step (b i) o).2

theorem stand_concat (A : Machine α ω ρ) (a : ι → α) (ops : List (Op ι ω)) (o : Op ι ω) :
    stand A a (ops ++ [o]) = turn A (stand A a ops) o := by
  funext j
  unfold stand
  rw [List.filterMap_append, run_append]
  cases o with
  | all o => rfl
  | one i o =>
    by_cases hj : j = i
    · subst hj
      simp [mine, turn, Machine.run]
    · simp [mine, turn, Machine.run, Function.update_of_ne hj, Ne.symm hj]

end Shards

end Lib
