import Sylar.Lib.Pool
import Sylar.Spec.Scheduler

/-! What the workers may do to one fiber. In a view only that fiber is left: its state, how
often it is queued and was scheduled since its last `swapIn`, and where each worker is with
it. As long as nobody schedules it at a wrong moment it is fresh, at rest, kept as a
`cb_fiber`, prepared, or run by one worker. -/

namespace Sylar

open Lib

open Function (update update_self update_of_ne)

theorem resettable_of_ended {st : FiberState} (h : st.ended) : Scheduler.resettable st := by
  cases st <;> first | rfl | cases h

/-- Where a worker is with the fiber. -/
inductive Role where
  | away
  | took
  | running (stage : Stage) (cb : Bool)
  | after (stage : After) (cb : Bool)
deriving DecidableEq

namespace Role

/-- The worker has entered the fiber and is not done with it. -/
def engaged : Role → Bool
  | .away | .took | .running .entering _ => false
  | .running .inside _ | .running .leaving _ | .running .returned _ | .after _ _ => true

/-- The worker holds an entry of the queue with which it has not entered the fiber. -/
def waiting : Role → ℕ
  | .took | .running .entering false => 1
  | _ => 0

/-- What a step of the worker makes of its role when the state of the fiber does not
change. -/
inductive Advance (st : FiberState) : Role → Role → Prop
  | drop (h : st.ended) : Advance st .took .away
  | enter (h : ¬ st.ended) : Advance st .took (.running .entering false)
  | yieldToHold (cb : Bool) : Advance st (.running .inside cb) (.running .leaving cb)
  | swapOut (cb : Bool) : Advance st (.running .leaving cb) (.running .returned cb)
  | decrement (cb : Bool) : Advance st (.running .returned cb) (.after .testReady cb)
  | ready (cb : Bool) (h : st = .READY) : Advance st (.after .testReady cb) (.after .requeue cb)
  | notReady (cb : Bool) (h : st ≠ .READY) :
      Advance st (.after .testReady cb) (.after .testEnded cb)
  | endedCb (h : st.ended) : Advance st (.after .testEnded true) (.after .reset true)
  | ended (h : st.ended) : Advance st (.after .testEnded false) .away
  | notEnded (cb : Bool) (h : ¬ st.ended) : Advance st (.after .testEnded cb) (.after .hold cb)

def Goes (st : FiberState) (r r' : Role) : Prop := r' = r ∨ Advance st r r'

/-- The states of a fiber that the worker in this role has entered. -/
def Fits (st : FiberState) (cb : Bool) : Role → Prop
  | .running .inside c => c = cb ∧ st = .EXEC
  | .running .leaving c | .running .returned c | .after .testReady c =>
      c = cb ∧ (st = .EXEC ∨ st = .READY ∨ st.ended)
  | .after .testEnded c => c = cb ∧ (st = .EXEC ∨ st.ended)
  | .after .requeue c => c = cb ∧ st = .READY
  | .after .hold c => c = cb ∧ st = .EXEC
  | .after .reset c => c = cb ∧ c = true ∧ st.ended
  | .away | .took | .running .entering _ => False

theorem fits_advance {st : FiberState} {cb : Bool} {r r' : Role} (h : Fits st cb r)
    (ha : Advance st r r') : Fits st cb r' ∨ r' = .away ∧ st.ended ∧ cb = false := by
  cases ha with
  | drop hst => exact h.elim
  | enter hst => exact h.elim
  | yieldToHold c => exact .inl ⟨h.1, .inl h.2⟩
  | swapOut c => exact .inl h
  | decrement c => exact .inl h
  | ready c hst => exact .inl ⟨h.1, hst⟩
  | notReady c hst => exact .inl ⟨h.1, h.2.imp_right fun h => h.resolve_left hst⟩
  | endedCb hst => exact .inl ⟨h.1, rfl, hst⟩
  | ended hst => exact .inr ⟨rfl, hst, h.1.symm⟩
  | notEnded c hst => exact .inl ⟨h.1, h.2.resolve_right hst⟩

theorem engaged_of_fits {st : FiberState} {cb : Bool} {r : Role} (h : Fits st cb r) :
    r.engaged := by
  unfold Fits at h
  split at h <;> first | rfl | exact h.elim

theorem state_of_fits {st : FiberState} {cb : Bool} {r : Role} (h : Fits st cb r) :
    st = .EXEC ∨ st = .READY ∨ st.ended := by
  unfold Fits at h
  split at h <;> tauto

theorem waiting_advance {st : FiberState} {r r' : Role} (ha : Advance st r r') :
    r'.waiting ≤ r.waiting := by
  cases ha <;> simp [waiting]

end Role

structure View (n : ℕ) where
  made : Bool
  state : FiberState
  queued : ℕ
  wakes : ℕ
  role : Fin n → Role
  owns : Fin n → Bool

namespace View

variable {n : ℕ} {v v' : View n}

def fresh : View n := ⟨false, .INIT, 0, 0, fun _ => .away, fun _ => false⟩

/-- The steps of the workers, and `schedule` at a moment when no worker keeps the fiber for
its next function or is yet to queue it again. A fiber is swapped in after at most one
`schedule`, and one that was scheduled while it was executing goes on to `YieldToHold`. -/
inductive Step (v : View n) : View n → Prop
  | make (h : v.made = false) : Step v { v with made := true, state := .INIT }
  | schedule (hmade : v.made = true) (hkept : ∀ w, v.owns w → ¬ Scheduler.resettable v.state)
      (hready : v.state = .READY → ∀ w, ¬ (v.role w).engaged) :
      Step v { v with queued := v.queued + 1, wakes := v.wakes + 1 }
  | dequeue (w : Fin n) (q : ℕ) (hw : v.role w = .away) (hq : v.queued = q + 1)
      (hst : v.state ≠ .EXEC) : Step v { v with queued := q, role := update v.role w .took }
  | advance (w : Fin n) (r : Role) (h : Role.Advance v.state (v.role w) r) :
      Step v { v with role := update v.role w r }
  | adopt (w : Fin n) (h : v.made = false) : Step v { v with
      made := true
      state := .INIT
      role := update v.role w (.running .entering true)
      owns := update v.owns w true }
  | prepare (w : Fin n) (hw : v.role w = .away) (ho : v.owns w = true)
      (hst : Scheduler.resettable v.state) : Step v { v with
      state := .INIT
      role := update v.role w (.running .entering true) }
  | swapIn (w : Fin n) (cb : Bool) (hw : v.role w = .running .entering cb)
      (hst : v.state ≠ .EXEC) (hwakes : v.wakes ≤ 1) : Step v { v with
      state := .EXEC
      wakes := 0
      role := update v.role w (.running .inside cb) }
  | leave (w : Fin n) (cb : Bool) (st : FiberState) (hw : v.role w = .running .inside cb)
      (hst : st = .READY ∨ st.ended) (hwakes : v.wakes = 0) : Step v { v with
      state := st
      role := update v.role w (.running .leaving cb) }
  | requeue (w : Fin n) (cb : Bool) (hw : v.role w = .after .requeue cb) : Step v { v with
      queued := v.queued + 1
      wakes := v.wakes + 1
      role := update v.role w .away
      owns := update v.owns w (!cb && v.owns w) }
  | hold (w : Fin n) (cb : Bool) (hw : v.role w = .after .hold cb) : Step v { v with
      state := .HOLD
      role := update v.role w .away
      owns := update v.owns w (!cb && v.owns w) }
  | reset (w : Fin n) (cb : Bool) (hw : v.role w = .after .reset cb)
      (hst : Scheduler.resettable v.state) : Step v { v with
      state := .INIT
      role := update v.role w .away }

/-- The entries of the queue that are still to bring a worker into the fiber. -/
def pending (v : View n) : ℕ := v.queued + ∑ w, (v.role w).waiting

/-- No worker has entered the fiber and none keeps it. -/
structure Rest (v : View n) : Prop where
  made : v.made = true
  state : v.state ≠ .EXEC
  owns : ∀ w, v.owns w = false
  roles : ∀ w, v.role w = .away ∨ v.role w = .took ∨
    v.role w = .running .entering false ∧ ¬ v.state.ended

/-- It is the `cb_fiber` of `w`, whose last function has ended. -/
structure Kept (v : View n) (w : Fin n) : Prop where
  made : v.made = true
  state : Scheduler.resettable v.state
  owns : ∀ u, v.owns u = decide (u = w)
  roles : ∀ u, v.role u = .away
  queued : v.queued = 0

/-- It is the `cb_fiber` of `w`, which is about to enter it. -/
structure Prepared (v : View n) (w : Fin n) : Prop where
  made : v.made = true
  state : v.state = .INIT
  owns : ∀ u, v.owns u = decide (u = w)
  role : v.role w = .running .entering true
  roles : ∀ u, u ≠ w → v.role u = .away
  queued : v.queued = 0

/-- Only `w` has entered it. An entry that another worker took will be dropped. -/
structure Run (v : View n) (w : Fin n) (cb : Bool) : Prop where
  made : v.made = true
  fits : Role.Fits v.state cb (v.role w)
  owns : ∀ u, v.owns u = (decide (u = w) && cb)
  roles : ∀ u, u ≠ w → v.role u = .away ∨ v.role u = .took ∧ v.state.ended ∧ cb = false
  queued : v.state = .READY ∨ v.state.ended ∧ cb = true → v.queued = 0

theorem Run.others_away {w u : Fin n} {cb : Bool} (h : Run v w cb)
    (hst : v.state = .EXEC ∨ v.state = .READY ∨ cb = true) (hu : u ≠ w) : v.role u = .away := by
  rcases h.roles u hu with hr | ⟨-, hended, hcb⟩
  · exact hr
  · rcases hst with hst | hst | hst <;> simp [hst, FiberState.ended] at hended hcb

/-- A worker that is not engaged with the fiber is not the one that runs it. -/
theorem Run.ne_of_role {w u : Fin n} {cb : Bool} {r : Role} (h : Run v u cb) (hw : v.role w = r)
    (hr : r.engaged = false) : w ≠ u := by
  intro hwu
  subst hwu
  have hengaged := Role.engaged_of_fits h.fits
  rw [hw, hr] at hengaged
  cases hengaged

inductive Phase (v : View n) : Prop
  | fresh (h : v = View.fresh)
  | rest (h : Rest v)
  | kept (w : Fin n) (h : Kept v w)
  | prepared (w : Fin n) (h : Prepared v w)
  | run (w : Fin n) (cb : Bool) (h : Run v w cb)

theorem Phase.eq_fresh (h : Phase v) (hmade : v.made = false) : v = View.fresh := by
  cases h with
  | fresh h => exact h
  | rest h => exact absurd h.made (by simp [hmade])
  | kept w h => exact absurd h.made (by simp [hmade])
  | prepared w h => exact absurd h.made (by simp [hmade])
  | run w cb h => exact absurd h.made (by simp [hmade])

theorem Phase.run_of_engaged (h : Phase v) {w : Fin n} (hw : (v.role w).engaged) :
    ∃ cb, Run v w cb := by
  cases h with
  | fresh h =>
    rw [h] at hw
    exact absurd hw (by simp [View.fresh, Role.engaged])
  | rest h =>
    rcases h.roles w with hr | hr | ⟨hr, -⟩ <;> exact absurd hw (by simp [hr, Role.engaged])
  | kept u h => exact absurd hw (by simp [h.roles w, Role.engaged])
  | prepared u h =>
    by_cases hwu : w = u
    · exact absurd hw (by simp [hwu, h.role, Role.engaged])
    · exact absurd hw (by simp [h.roles w hwu, Role.engaged])
  | run u cb h =>
    by_cases hwu : w = u
    · exact ⟨cb, hwu ▸ h⟩
    · rcases h.roles w hwu with hr | ⟨hr, -⟩ <;> exact absurd hw (by simp [hr, Role.engaged])

theorem Phase.run_of_role (h : Phase v) {w : Fin n} {r : Role} (hw : v.role w = r)
    (hr : r.engaged) : ∃ cb, Run v w cb ∧ Role.Fits v.state cb r := by
  obtain ⟨cb, hrun⟩ := h.run_of_engaged (hw ▸ hr)
  exact ⟨cb, hrun, hw ▸ hrun.fits⟩

theorem Phase.of_took (h : Phase v) {w : Fin n} (hw : v.role w = .took) :
    Rest v ∨ ∃ u, u ≠ w ∧ Run v u false ∧ v.state.ended := by
  cases h with
  | fresh h =>
    rw [h] at hw
    exact absurd hw (by simp [View.fresh])
  | rest h => exact .inl h
  | kept u h => exact absurd hw (by simp [h.roles w])
  | prepared u h =>
    by_cases hwu : w = u
    · exact absurd hw (by simp [hwu, h.role])
    · exact absurd hw (by simp [h.roles w hwu])
  | run u cb h =>
    have hwu : w ≠ u := h.ne_of_role hw rfl
    rcases h.roles w hwu with hr | ⟨-, hst, rfl⟩
    · exact absurd hw (by simp [hr])
    · exact .inr ⟨u, hwu.symm, h, hst⟩

theorem Phase.of_entering (h : Phase v) {w : Fin n} {cb : Bool}
    (hw : v.role w = .running .entering cb) :
    cb = false ∧ Rest v ∨ cb = true ∧ Prepared v w := by
  cases h with
  | fresh h =>
    rw [h] at hw
    exact absurd hw (by simp [View.fresh])
  | rest h =>
    rcases h.roles w with hr | hr | ⟨hr, -⟩
    · exact absurd hw (by simp [hr])
    · exact absurd hw (by simp [hr])
    · rw [hr] at hw
      cases hw
      exact .inl ⟨rfl, h⟩
  | kept u h => exact absurd hw (by simp [h.roles w])
  | prepared u h =>
    by_cases hwu : w = u
    · have hcb := h.role
      rw [← hwu, hw] at hcb
      cases hcb
      exact .inr ⟨rfl, hwu ▸ h⟩
    · exact absurd hw (by simp [h.roles w hwu])
  | run u cb h =>
    have hwu : w ≠ u := h.ne_of_role hw rfl
    rcases h.roles w hwu with hr | ⟨hr, -⟩ <;> exact absurd hw (by simp [hr])

theorem Phase.kept_of_owns (h : Phase v) {w : Fin n} (hw : v.role w = .away)
    (ho : v.owns w = true) : Kept v w := by
  cases h with
  | fresh h =>
    rw [h] at ho
    exact absurd ho (by simp [View.fresh])
  | rest h => exact absurd ho (by simp [h.owns w])
  | kept u h =>
    have hwu : w = u := by simpa [h.owns w] using ho
    exact hwu ▸ h
  | prepared u h =>
    have hwu : w = u := by simpa [h.owns w] using ho
    exact absurd h.role (by simp [← hwu, hw])
  | run u cb h =>
    have hwu : w = u ∧ cb = true := by simpa [h.owns w] using ho
    exact absurd hwu.1 (h.ne_of_role hw rfl)

theorem pending_update (v : View n) (w : Fin n) (r : Role) :
    { v with role := update v.role w r }.pending + (v.role w).waiting =
      v.pending + r.waiting := by
  have h := sum_update Role.waiting v.role w r
  unfold pending
  dsimp only
  omega

theorem queued_add_waiting_le (v : View n) (w : Fin n) :
    v.queued + (v.role w).waiting ≤ v.pending := by
  have h := Finset.single_le_sum (fun u _ => Nat.zero_le (v.role u).waiting) (Finset.mem_univ w)
  exact Nat.add_le_add_left h v.queued

theorem alone_of_pending_le_one {w : Fin n} (hw : (v.role w).waiting = 1) (h : v.pending ≤ 1) :
    v.queued = 0 ∧ ∀ u, u ≠ w → (v.role u).waiting = 0 := by
  have haway := pending_update v w .away
  have hzero : { v with role := update v.role w .away }.pending = 0 := by
    rw [hw, show Role.away.waiting = 0 from rfl] at haway
    omega
  constructor
  · have hle := queued_add_waiting_le { v with role := update v.role w .away } w
    exact Nat.eq_zero_of_add_eq_zero_right (Nat.eq_zero_of_le_zero (hle.trans hzero.le))
  · intro u hu
    have hle := queued_add_waiting_le { v with role := update v.role w .away } u
    rw [hzero] at hle
    dsimp only at hle
    rw [update_of_ne hu] at hle
    omega

theorem pending_eq_zero (hq : v.queued = 0) (h : ∀ w, (v.role w).waiting = 0) :
    v.pending = 0 := by
  simp [pending, hq, h]

theorem Prepared.pending_eq_zero {w : Fin n} (h : Prepared v w) : v.pending = 0 := by
  apply View.pending_eq_zero h.queued
  intro u
  by_cases hu : u = w
  · rw [hu, h.role]
    rfl
  · rw [h.roles u hu]
    rfl

theorem pending_fresh : (View.fresh : View n).pending = 0 :=
  pending_eq_zero rfl fun _ => rfl

theorem pending_le_wakes (hc : v.pending ≤ v.wakes) {w : Fin n} {r : Role}
    (hr : r.waiting ≤ (v.role w).waiting) (hrole : v'.role = update v.role w r)
    (hq : v'.queued = v.queued) (hwakes : v'.wakes = v.wakes) : v'.pending ≤ v'.wakes := by
  have hp := pending_update v w r
  simp only [pending] at hp hc ⊢
  rw [hrole, hq, hwakes]
  omega

theorem pending_step (h : Phase v) (hc : v.pending ≤ v.wakes) (hs : Step v v') :
    v'.pending ≤ v'.wakes := by
  cases hs with
  | make hmade => exact hc
  | schedule hmade hkept hready =>
    unfold pending at hc ⊢
    dsimp only
    omega
  | dequeue w q hw hq hst =>
    have hp := pending_update v w .took
    rw [hw] at hp
    simp only [pending, Role.waiting] at hp hc ⊢
    omega
  | advance w r hr => exact pending_le_wakes hc (Role.waiting_advance hr) rfl rfl rfl
  | adopt w hmade => exact pending_le_wakes hc (Nat.zero_le _) rfl rfl rfl
  | prepare w hw ho hst => exact pending_le_wakes hc (Nat.zero_le _) rfl rfl rfl
  | swapIn w cb hw hst hwakes =>
    have hp := pending_update v w (.running .inside cb)
    rw [hw] at hp
    rcases h.of_entering hw with ⟨rfl, -⟩ | ⟨rfl, hprep⟩
    · simp only [pending, Role.waiting] at hp hc ⊢
      omega
    · have hzero := hprep.pending_eq_zero
      simp only [pending, Role.waiting] at hp hzero ⊢
      omega
  | leave w cb st hw hst hwakes => exact pending_le_wakes hc (Nat.zero_le _) rfl rfl rfl
  | requeue w cb hw =>
    have hp := pending_update v w .away
    simp only [pending, Role.waiting] at hp hc ⊢
    omega
  | hold w cb hw => exact pending_le_wakes hc (Nat.zero_le _) rfl rfl rfl
  | reset w cb hw hst => exact pending_le_wakes hc (Nat.zero_le _) rfl rfl rfl

theorem phase_rest {w : Fin n} {r : Role} (hrole : v'.role = update v.role w r)
    (hmade : v'.made = true) (hst : v'.state ≠ .EXEC) (howns : ∀ u, v'.owns u = false)
    (hr : r = .away ∨ r = .took ∨ r = .running .entering false ∧ ¬ v'.state.ended)
    (hroles : ∀ u, u ≠ w → v.role u = .away ∨ v.role u = .took ∨
      v.role u = .running .entering false ∧ ¬ v'.state.ended) : Phase v' := by
  refine .rest ⟨hmade, hst, howns, fun u => ?_⟩
  rw [hrole]
  by_cases hu : u = w
  · rw [hu, update_self]
    exact hr
  · rw [update_of_ne hu]
    exact hroles u hu

theorem phase_run {w : Fin n} {r : Role} {cb : Bool} (hrole : v'.role = update v.role w r)
    (hmade : v'.made = true) (hfits : Role.Fits v'.state cb r)
    (howns : ∀ u, v'.owns u = (decide (u = w) && cb))
    (hroles : ∀ u, u ≠ w → v.role u = .away ∨ v.role u = .took ∧ v'.state.ended ∧ cb = false)
    (hq : v'.state = .READY ∨ v'.state.ended ∧ cb = true → v'.queued = 0) : Phase v' := by
  refine .run w cb ⟨hmade, ?_, howns, ?_, hq⟩
  · rw [hrole, update_self]
    exact hfits
  · intro u hu
    rw [hrole, update_of_ne hu]
    exact hroles u hu

/-- While `u` runs the fiber, another worker takes an entry or drops one. -/
theorem Run.other {u w : Fin n} {cb : Bool} {r : Role} {q : ℕ} (h : Run v u cb) (hwu : u ≠ w)
    (hr : r = .away ∨ r = .took ∧ v.state.ended ∧ cb = false)
    (hq : v.state = .READY ∨ v.state.ended ∧ cb = true → q = 0) :
    Phase { v with queued := q, role := update v.role w r } := by
  refine .run u cb ⟨h.made, ?_, h.owns, ?_, hq⟩
  · show Role.Fits v.state cb (update v.role w r u)
    rw [update_of_ne hwu]
    exact h.fits
  · exact (Function.forall_update_iff v.role fun x r =>
      x ≠ u → r = .away ∨ r = .took ∧ v.state.ended ∧ cb = false).mpr
        ⟨fun _ => hr, fun x _ => h.roles x⟩

theorem phase_schedule (h : Phase v) (hmade : v.made = true)
    (hkept : ∀ w, v.owns w → ¬ Scheduler.resettable v.state)
    (hready : v.state = .READY → ∀ w, ¬ (v.role w).engaged) :
    Phase { v with queued := v.queued + 1, wakes := v.wakes + 1 } := by
  cases h with
  | fresh h =>
    rw [h] at hmade
    exact absurd hmade (by simp [View.fresh])
  | rest h => exact .rest ⟨h.made, h.state, h.owns, h.roles⟩
  | kept w h => exact absurd h.state (hkept w (by simp [h.owns w]))
  | prepared w h =>
    refine absurd ?_ (hkept w (by simp [h.owns w]))
    rw [h.state]
    rfl
  | run w cb h =>
    refine .run w cb ⟨h.made, h.fits, h.owns, h.roles, ?_⟩
    rintro (hst | ⟨hst, rfl⟩)
    · exact absurd (Role.engaged_of_fits h.fits) (hready hst w)
    · exact absurd (resettable_of_ended hst) (hkept w (by simp [h.owns w]))

theorem phase_dequeue (h : Phase v) {w : Fin n} {q : ℕ} (hw : v.role w = .away)
    (hq : v.queued = q + 1) (hst : v.state ≠ .EXEC) :
    Phase { v with queued := q, role := update v.role w .took } := by
  cases h with
  | fresh h =>
    rw [h] at hq
    exact absurd hq (by simp [View.fresh])
  | rest h =>
    exact phase_rest rfl h.made h.state h.owns (.inr (.inl rfl)) fun u _ => h.roles u
  | kept u h => exact absurd h.queued (by simp [hq])
  | prepared u h => exact absurd h.queued (by simp [hq])
  | run u cb h =>
    have hwu : u ≠ w := (h.ne_of_role hw rfl).symm
    have hnot : ¬ (v.state = .READY ∨ v.state.ended ∧ cb = true) :=
      fun hc => absurd (h.queued hc) (by simp [hq])
    -- an entry of a fiber that some worker runs can be taken only when the fiber has ended
    have hended : v.state.ended := by
      rcases Role.state_of_fits h.fits with hexec | hready | hended
      · exact absurd hexec hst
      · exact absurd (.inl hready) hnot
      · exact hended
    have hcb : cb = false := by simpa [hended] using fun hcb => hnot (.inr ⟨hended, hcb⟩)
    exact h.other hwu (.inr ⟨rfl, hended, hcb⟩) fun hc => absurd hc hnot

/-- A worker that has entered the fiber goes on, or is done with a fiber that has ended. -/
theorem Run.advance {w : Fin n} {r : Role} {cb : Bool} (h : Run v w cb)
    (hr : Role.Advance v.state (v.role w) r) : Phase { v with role := update v.role w r } := by
  rcases Role.fits_advance h.fits hr with hfits | ⟨rfl, hst, rfl⟩
  · exact phase_run rfl h.made hfits h.owns h.roles h.queued
  · refine phase_rest rfl h.made ?_ ?_ (.inl rfl) ?_
    · intro hexec
      rw [show v.state = .EXEC from hexec] at hst
      cases hst
    · intro u
      exact (h.owns u).trans (Bool.and_false _)
    · intro u hu
      exact (h.roles u hu).imp_right fun hr => .inl hr.1

theorem phase_advance (h : Phase v) {w : Fin n} {r : Role}
    (hr : Role.Advance v.state (v.role w) r) : Phase { v with role := update v.role w r } := by
  by_cases hw : (v.role w).engaged
  · obtain ⟨cb, hrun⟩ := h.run_of_engaged hw
    exact hrun.advance hr
  · have htook : v.role w = .took := by
      cases hrole : v.role w with
      | took => rfl
      | _ => rw [hrole] at hw hr; cases hr <;> simp [Role.engaged] at hw
    rw [htook] at hr
    rcases h.of_took htook with hrest | ⟨u, hu, hrun, hst⟩
    · cases hr with
      | drop hst =>
        exact phase_rest rfl hrest.made hrest.state hrest.owns (.inl rfl) fun u _ => hrest.roles u
      | enter hst =>
        exact phase_rest rfl hrest.made hrest.state hrest.owns (.inr (.inr ⟨rfl, hst⟩))
          fun u _ => hrest.roles u
    · cases hr with
      | drop _ => exact hrun.other hu (.inl rfl) hrun.queued
      | enter hnot => exact absurd hst hnot

theorem phase_swapIn (h : Phase v) (hc : v.pending ≤ v.wakes) {w : Fin n} {cb : Bool}
    (hw : v.role w = .running .entering cb) (hwakes : v.wakes ≤ 1) :
    Phase { v with state := .EXEC, wakes := 0, role := update v.role w (.running .inside cb) } := by
  have hq : FiberState.EXEC = .READY ∨ FiberState.EXEC.ended ∧ cb = true → v.queued = 0 := by
    rintro (hst | ⟨hst, -⟩) <;> cases hst
  rcases h.of_entering hw with ⟨rfl, hrest⟩ | ⟨rfl, hprep⟩
  · have hone : (v.role w).waiting = 1 := by rw [hw]; rfl
    have halone := alone_of_pending_le_one hone (hc.trans hwakes)
    refine phase_run rfl hrest.made ⟨rfl, rfl⟩ (fun u => ?_) (fun u hu => .inl ?_) hq
    · rw [hrest.owns u, Bool.and_false]
    · rcases hrest.roles u with hr | hr | ⟨hr, -⟩
      · exact hr
      · exact absurd (halone.2 u hu) (by simp [hr, Role.waiting])
      · exact absurd (halone.2 u hu) (by simp [hr, Role.waiting])
  · refine phase_run rfl hprep.made ⟨rfl, rfl⟩ (fun u => ?_) (fun u hu => .inl ?_) hq
    · rw [hprep.owns u, Bool.and_true]
    · exact hprep.roles u hu

theorem phase_leave (h : Phase v) (hc : v.pending ≤ v.wakes) {w : Fin n} {cb : Bool}
    {st : FiberState} (hw : v.role w = .running .inside cb) (hst : st = .READY ∨ st.ended)
    (hwakes : v.wakes = 0) :
    Phase { v with state := st, role := update v.role w (.running .leaving cb) } := by
  obtain ⟨c, hrun, rfl, hexec⟩ := h.run_of_role hw rfl
  refine phase_run rfl hrun.made ⟨rfl, .inr hst⟩ hrun.owns (fun u hu => .inl ?_) fun _ => ?_
  · exact hrun.others_away (.inl hexec) hu
  · have hle := queued_add_waiting_le v w
    show v.queued = 0
    omega

theorem Run.release {w : Fin n} {cb : Bool} (h : Run v w cb)
    (hst : v.state = .EXEC ∨ v.state = .READY) (hrole : v'.role = update v.role w .away)
    (hmade : v'.made = v.made) (hst' : v'.state ≠ .EXEC)
    (howns : v'.owns = update v.owns w (!cb && v.owns w)) : Phase v' := by
  apply phase_rest hrole (hmade.trans h.made) hst' _ (.inl rfl)
  · intro u hu
    exact .inl (h.others_away (hst.imp_right .inl) hu)
  · intro u
    rw [howns]
    by_cases hu : u = w
    · rw [hu, update_self, h.owns w]
      simp
    · rw [update_of_ne hu, h.owns u]
      simp [hu]

theorem phase_reset (h : Phase v) {w : Fin n} {cb : Bool} (hw : v.role w = .after .reset cb) :
    Phase { v with state := .INIT, role := update v.role w .away } := by
  obtain ⟨c, hrun, rfl, rfl, hended⟩ := h.run_of_role hw rfl
  refine .kept w ⟨hrun.made, rfl, fun u => ?_, ?_, hrun.queued (.inr ⟨hended, rfl⟩)⟩
  · rw [hrun.owns u, Bool.and_true]
  · exact (Function.forall_update_iff v.role fun _ r => r = .away).mpr
      ⟨rfl, fun u hu => hrun.others_away (.inr (.inr rfl)) hu⟩

theorem phase_prepared {w : Fin n} (hmade : v'.made = true) (hst : v'.state = .INIT)
    (howns : ∀ u, v'.owns u = decide (u = w))
    (hrole : v'.role = update v.role w (.running .entering true))
    (hroles : ∀ u, v.role u = .away) (hq : v'.queued = 0) : Phase v' := by
  refine .prepared w ⟨hmade, hst, howns, ?_, fun u hu => ?_, hq⟩
  · rw [hrole, update_self]
  · rw [hrole, update_of_ne hu]
    exact hroles u

theorem phase_step (h : Phase v) (hc : v.pending ≤ v.wakes) (hs : Step v v') : Phase v' := by
  cases hs with
  | make hmade =>
    rw [h.eq_fresh hmade]
    exact .rest ⟨rfl, nofun, fun _ => rfl, fun _ => .inl rfl⟩
  | schedule hmade hkept hready => exact phase_schedule h hmade hkept hready
  | dequeue w q hw hq hst => exact phase_dequeue h hw hq hst
  | advance w r hr => exact phase_advance h hr
  | adopt w hmade =>
    rw [h.eq_fresh hmade]
    refine phase_prepared rfl rfl (fun u => ?_) rfl (fun _ => rfl) rfl
    by_cases hu : u = w
    · simp [hu]
    · simp [hu, View.fresh]
  | prepare w hw ho hst =>
    have hkept := h.kept_of_owns hw ho
    exact phase_prepared hkept.made rfl hkept.owns rfl hkept.roles hkept.queued
  | swapIn w cb hw hst hwakes => exact phase_swapIn h hc hw hwakes
  | leave w cb st hw hst hwakes => exact phase_leave h hc hw hst hwakes
  | requeue w cb hw =>
    obtain ⟨c, hrun, rfl, hready⟩ := h.run_of_role hw rfl
    exact hrun.release (.inr hready) rfl rfl (by simp [hready]) rfl
  | hold w cb hw =>
    obtain ⟨c, hrun, rfl, hexec⟩ := h.run_of_role hw rfl
    exact hrun.release (.inl hexec) rfl rfl nofun rfl
  | reset w cb hw hst => exact phase_reset h hw

theorem phase_steps (h : Phase v) (hc : v.pending ≤ v.wakes)
    (hs : Relation.ReflTransGen Step v v') : Phase v' ∧ v'.pending ≤ v'.wakes := by
  induction hs with
  | refl => exact ⟨h, hc⟩
  | tail _ hstep ih => exact ⟨phase_step ih.1 ih.2 hstep, pending_step ih.1 ih.2 hstep⟩

theorem Phase.engaged_unique (h : Phase v) {w u : Fin n} (hw : (v.role w).engaged)
    (hu : (v.role u).engaged) : w = u := by
  obtain ⟨cb, hrun⟩ := h.run_of_engaged hu
  by_contra hne
  rcases hrun.roles w hne with hr | ⟨hr, -⟩ <;> exact absurd hw (by simp [hr, Role.engaged])

theorem Phase.state_ne_exec (h : Phase v) {w : Fin n} {cb : Bool}
    (hw : v.role w = .running .entering cb) : v.state ≠ .EXEC := by
  rcases h.of_entering hw with ⟨-, hrest⟩ | ⟨-, hprep⟩
  · exact hrest.state
  · rw [hprep.state]
    nofun

end View

end Sylar
