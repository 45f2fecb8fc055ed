import Sylar.Proofs.FiberProtocol
import Sylar.Proofs.Scheduler

/-! At most one worker is inside a fiber, as long as nobody schedules a fiber that a worker
keeps for its next function, or one that has yielded to `READY` and is yet to be queued
again. What a step does to each fiber is a step of its protocol. -/

namespace Sylar

open Lib

open scoped List

namespace Scheduler

variable {n : ℕ} {Cb : Type} {tid : Fin n → ℤ} {s s' : Scheduler n Cb} {f : ℕ}

def isFiber (f : ℕ) : Work Cb → Bool
  | .fiber g => g = f
  | .cb _ => false

def entries (f : ℕ) (q : List (Task Cb)) : ℕ := q.countP fun t => isFiber f t.ft.work

def role (f : ℕ) : Pc Cb → Role
  | .took t => if isFiber f t.ft.work then .took else .away
  | .running stage _ g cb => if g = f then .running stage cb else .away
  | .after stage g cb => if g = f then .after stage cb else .away
  | .top | .preparing _ | .dropping _ _ | .toIdle | .idling | .stopped => .away

def view (f : ℕ) (s : Scheduler n Cb) : View n where
  made := f < s.made
  state := s.states f
  queued := entries f s.m_fibers
  wakes := s.wakes f
  role := fun w => role f (s.workers w).pc
  owns := fun w => (s.workers w).cb_fiber = some f

/-- How often the fiber that the worker is about to enter or is inside of was scheduled
since it was last entered. -/
def wakesOf (s : Scheduler n Cb) (w : Fin n) : ℕ :=
  match (s.workers w).pc with
  | .running _ _ f _ => s.wakes f
  | _ => 0

/-- A fiber is scheduled at most once between two `swapIn`s, and one that was scheduled
while it was executing goes on to `YieldToHold`. -/
def Disciplined (s : Scheduler n Cb) : Move n Cb → Prop
  | .swapIn w => s.wakesOf w ≤ 1
  | .yieldToReady w | .finish w _ => s.wakesOf w = 0
  | _ => True

/-- The fiber is not the `cb_fiber` of a worker for a function that has ended or is yet to
begin, and no worker has yet to queue it again after `YieldToReady`. -/
def Timely (s : Scheduler n Cb) : Option (Work Cb) → Prop
  | some (.fiber f) => (∀ w, (s.workers w).cb_fiber = some f → ¬ resettable (s.states f)) ∧
      (s.states f = .READY → ∀ w, ¬ (role f (s.workers w).pc).engaged)
  | some (.cb _) | none => True

/-- Whatever is scheduled is scheduled at a timely moment. -/
def TimelyMove (s : Scheduler n Cb) : Move n Cb → Prop
  | .schedule works => ∀ x ∈ works, Timely s x.1
  | _ => True

instance (s : Scheduler n Cb) : ∀ m : Move n Cb, Decidable (Disciplined s m)
  | .swapIn w => inferInstanceAs (Decidable (s.wakesOf w ≤ 1))
  | .yieldToReady w | .finish w _ => inferInstanceAs (Decidable (s.wakesOf w = 0))
  | .schedule _ | .newFiber | .dequeue _ | .check _ | .prepare _ | .yieldToHold _ | .swapOut _
  | .decrement _ | .settle _ | .idleIn _ | .idleOut _ _ => .isTrue trivial

instance (s : Scheduler n Cb) : ∀ work : Option (Work Cb), Decidable (Timely s work)
  | some (.fiber f) => inferInstanceAs (Decidable
      ((∀ w, (s.workers w).cb_fiber = some f → ¬ resettable (s.states f)) ∧
        (s.states f = .READY → ∀ w, ¬ (role f (s.workers w).pc).engaged)))
  | some (.cb _) | none => .isTrue trivial

instance (s : Scheduler n Cb) : ∀ m : Move n Cb, Decidable (TimelyMove s m)
  | .schedule works => inferInstanceAs (Decidable (∀ x ∈ works, Timely s x.1))
  | .newFiber | .dequeue _ | .check _ | .prepare _ | .swapIn _ | .yieldToReady _ | .yieldToHold _
  | .finish _ _ | .swapOut _ | .decrement _ | .settle _ | .idleIn _ | .idleOut _ _ => .isTrue trivial

theorem view_worker {w : Fin n} {x : Worker Cb}
    (hw : s'.workers = Function.update s.workers w x) (f : ℕ) :
    view f s' = ⟨f < s'.made, s'.states f, entries f s'.m_fibers, s'.wakes f,
      Function.update (view f s).role w (role f x.pc),
      Function.update (view f s).owns w (x.cb_fiber = some f)⟩ := by
  unfold view
  rw [hw]
  congr 1
  · funext v
    exact Function.apply_update (fun _ (y : Worker Cb) => role f y.pc) s.workers w x v
  · funext v
    exact Function.apply_update (fun _ (y : Worker Cb) => decide (y.cb_fiber = some f)) s.workers w x v

theorem view_setPc (s : Scheduler n Cb) (w : Fin n) (pc : Pc Cb) (f : ℕ) :
    view f (s.setPc w pc) =
      { view f s with role := Function.update (view f s).role w (role f pc) } := by
  rw [view_worker rfl]
  congr 1
  exact Function.update_eq_self w (view f s).owns

theorem view_setPc_eq {w : Fin n} {pc : Pc Cb} (h : role f pc = role f (s.workers w).pc) :
    view f (s.setPc w pc) = view f s := by
  rw [view_setPc, h]
  exact congrArg (fun r => { view f s with role := r }) (Function.update_eq_self w (view f s).role)

theorem view_idleOut (s : Scheduler n Cb) (w : Fin n) (idle : ℕ) (term : Bool) (f : ℕ) :
    view f { s with
      m_idleThreadCount := idle
      workers := Function.update s.workers w { s.workers w with
        pc := .top
        idle_term := term } } = view f (s.setPc w .top) := by
  rw [view_setPc, view_worker rfl]
  congr 1
  exact Function.update_eq_self w (view f s).owns

theorem view_setState (s : Scheduler n Cb) (f : ℕ) (st : FiberState) :
    view f (s.setState f st) = { view f s with state := st } :=
  congrArg (fun x => { view f s with state := x }) (Function.update_self f st s.states)

theorem view_setState_of_ne {g : ℕ} (hg : f ≠ g) (st : FiberState) :
    view f (s.setState g st) = view f s :=
  congrArg (fun x => { view f s with state := x }) (Function.update_of_ne hg st s.states)

theorem view_push (s : Scheduler n Cb) (f : ℕ) (thread : ℤ) :
    view f (s.push ⟨.fiber f, thread⟩) =
      { view f s with queued := (view f s).queued + 1, wakes := (view f s).wakes + 1 } := by
  have hq : entries f (s.push ⟨.fiber f, thread⟩).m_fibers = (view f s).queued + 1 := by
    simp [entries, push, isFiber, view]
  have hwakes : (s.push ⟨.fiber f, thread⟩).wakes f = (view f s).wakes + 1 := by
    simp [push, view]
  exact congrArg₂ (fun q k => { view f s with queued := q, wakes := k }) hq hwakes

theorem view_push_of_not {ft : FiberAndThread Cb} (h : isFiber f ft.work = false) :
    view f (s.push ft) = view f s := by
  have hq : entries f (s.push ft).m_fibers = (view f s).queued := by
    simp [entries, push, h, view]
  have hwakes : (s.push ft).wakes f = (view f s).wakes := by
    obtain ⟨work, thread⟩ := ft
    cases work with
    | cb c => rfl
    | fiber g =>
      apply Function.update_of_ne
      intro hg
      simp [isFiber, hg] at h
  exact congrArg₂ (fun q k => { view f s with queued := q, wakes := k }) hq hwakes

theorem view_release (s : Scheduler n Cb) (w : Fin n) (cb : Bool) (f : ℕ) :
    view f (s.release w cb) = { view f s with
      role := Function.update (view f s).role w .away
      owns := Function.update (view f s).owns w (!cb && (view f s).owns w) } := by
  have howns : decide ((if cb then none else (s.workers w).cb_fiber) = some f) =
      (!cb && (view f s).owns w) := by
    cases cb with
    | false => rfl
    | true => rfl
  rw [view_worker rfl, ← howns]
  rfl

theorem view_release_of_away {w : Fin n} {cb : Bool} (hw : (view f s).role w = .away)
    (hcb : cb = true → (view f s).owns w = false) : view f (s.release w cb) = view f s := by
  have howns : (!cb && (view f s).owns w) = (view f s).owns w := by
    cases cb with
    | false => rfl
    | true => rw [hcb rfl]; rfl
  rw [view_release, ← hw, howns]
  exact congrArg₂ (fun r o => { view f s with role := r, owns := o })
    (Function.update_eq_self w (view f s).role) (Function.update_eq_self w (view f s).owns)

/-- What has happened to the fiber `f`. -/
abbrev FiberSteps (f : ℕ) (s s' : Scheduler n Cb) : Prop :=
  Relation.ReflTransGen View.Step (view f s) (view f s')

theorem fiberSteps_of_eq (h : view f s' = view f s) : FiberSteps f s s' := by
  unfold FiberSteps
  rw [h]

theorem fiberSteps_setPc {w : Fin n} {pc : Pc Cb} (pc' : Pc Cb) (hw : (s.workers w).pc = pc)
    (h : Role.Goes (s.states f) (role f pc) (role f pc'))
    (hs : view f s' = view f (s.setPc w pc')) : FiberSteps f s s' := by
  subst hw
  rcases h with h | h
  · exact fiberSteps_of_eq (hs.trans (view_setPc_eq h))
  · unfold FiberSteps
    rw [hs, view_setPc]
    exact .single (.advance w _ h)

theorem role_goes {g : ℕ} {st : FiberState} {a b : Role} (h : g = f → Role.Advance st a b) :
    Role.Goes st (if g = f then a else .away) (if g = f then b else .away) := by
  by_cases hg : g = f
  · rw [if_pos hg, if_pos hg]
    exact .inr (h hg)
  · rw [if_neg hg, if_neg hg]
    exact .inl rfl

theorem role_goes_away {g : ℕ} {st : FiberState} {a : Role} (h : g = f → Role.Advance st a .away) :
    Role.Goes st (if g = f then a else .away) .away := by
  have hgoes := role_goes h
  rw [ite_self] at hgoes
  exact hgoes

theorem isFiber_iff {work : Work Cb} : isFiber f work ↔ work = .fiber f := by
  cases work with
  | fiber g => simp [isFiber]
  | cb c => simp [isFiber]

theorem role_running_of_ne {g : ℕ} (hg : f ≠ g) (stage : Stage) (t : Task Cb) (cb : Bool) :
    role f (.running stage t g cb) = .away :=
  if_neg hg.symm

theorem role_after_of_ne {g : ℕ} (hg : f ≠ g) (stage : After) (cb : Bool) :
    role f (.after stage g cb : Pc Cb) = .away :=
  if_neg hg.symm

theorem role_running (stage : Stage) (t : Task Cb) (cb : Bool) :
    role f (.running stage t f cb) = .running stage cb :=
  if_pos rfl

theorem role_after (stage : After) (cb : Bool) :
    role f (.after stage f cb : Pc Cb) = .after stage cb :=
  if_pos rfl

theorem role_took {g : ℕ} {t : Task Cb} (ht : t.ft.work = .fiber g) :
    role f (.took t) = if g = f then .took else .away := by
  show (if isFiber f t.ft.work then Role.took else .away) = _
  rw [ht]
  simp [isFiber]

theorem role_testReady {g : ℕ} (cb : Bool) :
    Role.Goes (s.states f) (role f (.after .testReady g cb : Pc Cb))
      (role f (.after (if s.states g = .READY then .requeue else .testEnded) g cb : Pc Cb)) := by
  apply role_goes
  rintro rfl
  split
  · next hst => exact .ready cb hst
  · next hst => exact .notReady cb hst

theorem role_testEnded {g : ℕ} (cb : Bool) (hst : (s.states g).ended) :
    Role.Goes (s.states f) (role f (.after .testEnded g cb : Pc Cb))
      (role f (if cb then .after .reset g cb else .top : Pc Cb)) := by
  cases cb with
  | true => exact role_goes fun hg => .endedCb (hg ▸ hst)
  | false => exact role_goes_away fun hg => .ended (hg ▸ hst)

theorem view_role {w : Fin n} {pc : Pc Cb} (hw : (s.workers w).pc = pc) (f : ℕ) :
    (view f s).role w = role f pc :=
  congrArg (role f) hw

theorem wakesOf_eq {w : Fin n} {stage : Stage} {t : Task Cb} {g : ℕ} {cb : Bool}
    (hw : (s.workers w).pc = .running stage t g cb) : s.wakesOf w = (view g s).wakes := by
  unfold wakesOf
  rw [hw]
  rfl

theorem fiberSteps_setState {g : ℕ} {st : FiberState} {w : Fin n} {pc : Pc Cb} (pc' : Pc Cb)
    (hw : (s.workers w).pc = pc)
    (hself : View.Step (view g s)
      { view g s with state := st, role := Function.update (view g s).role w (role g pc') })
    (hother : f ≠ g → role f pc = .away ∧ role f pc' = .away) :
    FiberSteps f s ((s.setState g st).setPc w pc') := by
  by_cases hg : f = g
  · subst hg
    unfold FiberSteps
    rw [view_setPc, view_setState]
    exact .single hself
  · obtain ⟨hpc, hpc'⟩ := hother hg
    have hrole : role f pc' = role f ((s.setState g st).workers w).pc := by
      rw [show (s.setState g st).workers w = s.workers w from rfl, hw, hpc, hpc']
    apply fiberSteps_of_eq
    rw [view_setPc_eq hrole, view_setState_of_ne hg]

theorem owns_of_ne {w : Fin n} {stage : After} {g : ℕ} (hphase : (view g s).Phase)
    (hw : (s.workers w).pc = .after stage g true) (hg : f ≠ g) : (view f s).owns w = false := by
  obtain ⟨cb, hrun, hfits⟩ := hphase.run_of_role ((view_role hw g).trans (role_after _ _)) rfl
  have hcb : true = cb := by
    cases stage <;> exact hfits.1
  have howns := hrun.owns w
  rw [← hcb, decide_eq_true rfl] at howns
  have hfiber : (s.workers w).cb_fiber = some g := of_decide_eq_true howns
  apply decide_eq_false
  rw [hfiber]
  exact fun heq => hg (Option.some.inj heq).symm

theorem fiberSteps_release {r : Scheduler n Cb} {w : Fin n} {stage : After} {g : ℕ} {cb : Bool}
    (hphase : (view g s).Phase) (hw : (s.workers w).pc = .after stage g cb)
    (hother : ∀ e, e ≠ g → view e r = view e s)
    (hself : View.Step (view g s) (view g (r.release w cb))) :
    FiberSteps f s (r.release w cb) := by
  by_cases hg : f = g
  · subst hg
    exact .single hself
  · apply fiberSteps_of_eq
    rw [view_release_of_away, hother f hg]
    · rw [hother f hg]
      exact (view_role hw f).trans (role_after_of_ne hg ..)
    · intro hcb
      subst hcb
      rw [hother f hg]
      exact owns_of_ne hphase hw hg

theorem fiberSteps_schedule {works : List (Option (Work Cb) × ℤ)}
    (hworks : ∀ x ∈ works, s.exists_ x.1) (htimely : ∀ x ∈ works, Timely s x.1) :
    FiberSteps f s (works.foldl (fun s x => s.scheduleNoLock x.1 x.2) s) := by
  refine (foldl_scheduleNoLock (P := fun r => (r.workers = s.workers ∧ r.states = s.states ∧
    r.made = s.made) ∧ FiberSteps f s r) ⟨⟨rfl, rfl, rfl⟩, .refl⟩ ?_).2
  rintro r work thread hwork ⟨⟨hw, hst, hmade⟩, hsteps⟩
  refine ⟨⟨hw, hst, hmade⟩, ?_⟩
  unfold FiberSteps
  cases hf : isFiber f work with
  | false =>
    rw [view_push_of_not hf]
    exact hsteps
  | true =>
    rw [isFiber_iff] at hf
    subst hf
    obtain ⟨hkept, hready⟩ := htimely _ hwork
    rw [view_push]
    refine hsteps.tail (.schedule ?_ ?_ ?_)
    · show decide (f < r.made) = true
      rw [hmade]
      exact hworks _ hwork
    · intro w ho
      show ¬ resettable (r.states f)
      rw [hst]
      exact hkept w (hw ▸ of_decide_eq_true ho)
    · intro hr w
      show ¬ (role f (r.workers w).pc).engaged
      rw [hw]
      exact hready (hst ▸ hr) w

theorem view_newFiber (s : Scheduler n Cb) :
    view s.made { s.setState s.made .INIT with made := s.made + 1 } =
      { view s.made s with made := true, state := .INIT } := by
  have hmade : decide (s.made < s.made + 1) = true := decide_eq_true (Nat.lt_succ_self _)
  exact congrArg₂ (fun m x => { view s.made s with made := m, state := x }) hmade
    (Function.update_self s.made .INIT s.states)

theorem view_newFiber_of_ne (hf : f ≠ s.made) :
    view f { s.setState s.made .INIT with made := s.made + 1 } = view f s := by
  have hmade : decide (f < s.made + 1) = decide (f < s.made) := by
    rw [decide_eq_decide]
    omega
  exact congrArg₂ (fun m x => { view f s with made := m, state := x }) hmade
    (Function.update_of_ne hf .INIT s.states)

theorem fiberSteps_take {w : Fin n} {t : Task Cb} {rest : List (Task Cb)} {active : ℕ}
    {dequeued : List (Task Cb × Fin n)} (hw : (s.workers w).pc = .top)
    (ht : takeFirst (tid w) s.states s.m_fibers = some (t, rest)) :
    FiberSteps f s { s.setPc w (.took t) with
      m_fibers := rest
      m_activeThreadCount := active
      dequeued := dequeued } := by
  obtain ⟨hperm, -, hexec⟩ := takeFirst_some ht
  have hcount : (view f s).queued = entries f (t :: rest) := hperm.countP_eq _
  have hview : view f { s.setPc w (.took t) with
      m_fibers := rest
      m_activeThreadCount := active
      dequeued := dequeued } = { view f (s.setPc w (.took t)) with queued := entries f rest } := rfl
  unfold FiberSteps
  rw [hview]
  cases hf : isFiber f t.ft.work with
  | false =>
    have hrole : role f (.took t) = role f (s.workers w).pc := by
      rw [hw]
      simp [role, hf]
    have hrest : entries f rest = (view f s).queued := by
      rw [hcount]
      simp [entries, hf]
    rw [view_setPc_eq hrole, hrest]
  | true =>
    have hrole : role f (.took t) = .took := if_pos hf
    have hrest : (view f s).queued = entries f rest + 1 := by
      rw [hcount]
      simp [entries, hf]
    have hst : s.states f ≠ .EXEC := by
      rw [isFiber_iff.mp hf] at hexec
      simpa [executing] using hexec
    rw [view_setPc, hrole]
    exact .single (.dequeue w _ (view_role hw f) hrest hst)

theorem fiberSteps_make {w : Fin n} {t : Task Cb} (hw : (s.workers w).pc = .preparing t)
    (hcb : (s.workers w).cb_fiber = none) :
    FiberSteps f s { s.setState s.made .INIT with
      made := s.made + 1
      workers := Function.update s.workers w { s.workers w with
        pc := .running .entering t s.made true
        cb_fiber := some s.made } } := by
  have hview : view f { s.setState s.made .INIT with
      made := s.made + 1
      workers := Function.update s.workers w { s.workers w with
        pc := .running .entering t s.made true
        cb_fiber := some s.made } } =
      { view f { s.setState s.made .INIT with made := s.made + 1 } with
        role := Function.update (view f s).role w (role f (.running .entering t s.made true))
        owns := Function.update (view f s).owns w (some s.made = some f) } :=
    view_worker (x := { s.workers w with
      pc := .running .entering t s.made true
      cb_fiber := some s.made }) rfl f
  unfold FiberSteps
  rw [hview]
  by_cases hf : f = s.made
  · subst hf
    rw [view_newFiber, role_running, decide_eq_true rfl]
    exact .single (.adopt w (decide_eq_false (Nat.lt_irrefl _)))
  · have hrole : role f (.running .entering t s.made true) = (view f s).role w := by
      rw [view_role hw]
      exact role_running_of_ne hf ..
    have howns : decide (some s.made = some f) = (view f s).owns w := by
      show _ = decide ((s.workers w).cb_fiber = some f)
      rw [hcb]
      simp [Ne.symm hf]
    rw [view_newFiber_of_ne hf, hrole, howns, Function.update_eq_self, Function.update_eq_self]

theorem fiberSteps_swapIn {w : Fin n} {t : Task Cb} {g : ℕ} {cb : Bool}
    (hw : (s.workers w).pc = .running .entering t g cb) (hst : s.states g ≠ .EXEC)
    (hwakes : (view g s).wakes ≤ 1) :
    FiberSteps f s { (s.setState g .EXEC).setPc w (.running .inside t g cb) with
      wakes := Function.update s.wakes g 0 } := by
  have hview : view f { (s.setState g .EXEC).setPc w (.running .inside t g cb) with
      wakes := Function.update s.wakes g 0 } =
      { view f ((s.setState g .EXEC).setPc w (.running .inside t g cb)) with
        wakes := Function.update s.wakes g 0 f } := rfl
  unfold FiberSteps
  rw [hview, view_setPc]
  by_cases hg : f = g
  · subst hg
    rw [view_setState, role_running, Function.update_self]
    exact .single (.swapIn w cb ((view_role hw f).trans (role_running ..)) hst hwakes)
  · have hrole : role f (.running .inside t g cb) = (view f s).role w := by
      rw [view_role hw, role_running_of_ne hg, role_running_of_ne hg]
    rw [view_setState_of_ne hg, hrole, Function.update_of_ne hg, Function.update_eq_self]
    exact .refl

theorem fiberSteps_effect {m : Move n Cb} (hphase : ∀ g, (view g s).Phase)
    (he : Effect tid s m s') (hdisc : Disciplined s m) (htimely : TimelyMove s m) (f : ℕ) :
    FiberSteps f s s' := by
  cases he with
  | schedule works hworks => exact fiberSteps_schedule hworks htimely
  | newFiber =>
    by_cases hf : f = s.made
    · subst hf
      unfold FiberSteps
      rw [view_newFiber]
      exact .single (.make (decide_eq_false (Nat.lt_irrefl _)))
    · exact fiberSteps_of_eq (view_newFiber_of_ne hf)
  | take w t rest hw ht => exact fiberSteps_take hw ht
  | takeNone w hw =>
    refine fiberSteps_setPc _ hw (.inl ?_) rfl
    split <;> rfl
  | drop w t g hw ht hst =>
    refine fiberSteps_setPc (.dropping t (s.states g)) hw ?_ rfl
    rw [role_took ht]
    exact role_goes_away fun hg => .drop (hg ▸ hst)
  | enter w t g hw ht hst =>
    refine fiberSteps_setPc (.running .entering t g false) hw ?_ rfl
    rw [role_took ht]
    exact role_goes fun hg => .enter (hg ▸ hst)
  | checkCb w t c hw ht =>
    refine fiberSteps_setPc (.preparing t) hw (.inl ?_) rfl
    simp [role, ht, isFiber]
  | reuse w t g hw hcb hst =>
    refine fiberSteps_setState (.running .entering t g true) hw ?_
      fun hg => ⟨rfl, role_running_of_ne hg ..⟩
    rw [role_running]
    exact .prepare w (view_role hw g) (decide_eq_true hcb) hst
  | make w t hw hcb => exact fiberSteps_make hw hcb
  | swapIn w t g cb hw hst =>
    exact fiberSteps_swapIn hw hst ((wakesOf_eq hw).symm.trans_le hdisc)
  | yieldToReady w t g cb hw hst =>
    refine fiberSteps_setState (.running .leaving t g cb) hw ?_
      fun hg => ⟨role_running_of_ne hg .., role_running_of_ne hg ..⟩
    have hrole : (view g s).role w = .running .inside cb := (view_role hw g).trans (role_running ..)
    rw [role_running]
    exact .leave w cb .READY hrole (.inl rfl) ((wakesOf_eq hw).symm.trans hdisc)
  | yieldToHold w t g cb hw hst =>
    exact fiberSteps_setPc (.running .leaving t g cb) hw (role_goes fun _ => .yieldToHold cb) rfl
  | finish w threw t g cb hw =>
    refine fiberSteps_setState (.running .leaving t g cb) hw ?_
      fun hg => ⟨role_running_of_ne hg .., role_running_of_ne hg ..⟩
    have hrole : (view g s).role w = .running .inside cb := (view_role hw g).trans (role_running ..)
    have hended : (if threw then FiberState.EXCEPT else .TERM).ended := by cases threw <;> rfl
    rw [role_running]
    exact .leave w cb _ hrole (.inr hended) ((wakesOf_eq hw).symm.trans hdisc)
  | swapOut w t g cb hw =>
    exact fiberSteps_setPc (.running .returned t g cb) hw (role_goes fun _ => .swapOut cb) rfl
  | ran w t g cb hw =>
    refine fiberSteps_setPc (.after .testReady g cb) hw (role_goes fun _ => .decrement cb) ?_
    unfold view
    rfl
  | dropped w t state hw =>
    refine fiberSteps_setPc .top hw (.inl rfl) ?_
    unfold view
    rfl
  | testReady w g cb hw => exact fiberSteps_setPc _ hw (role_testReady cb) rfl
  | testEnded w g cb hw hst => exact fiberSteps_setPc _ hw (role_testEnded cb hst) rfl
  | testOther w g cb hw hst =>
    exact fiberSteps_setPc (.after .hold g cb) hw (role_goes fun hg => .notEnded cb (hg ▸ hst)) rfl
  | requeue w g cb hw =>
    refine fiberSteps_release (hphase g) hw (fun e he => ?_) ?_
    · exact view_push_of_not (decide_eq_false (Ne.symm he))
    · rw [view_release, view_push]
      exact .requeue w cb ((view_role hw g).trans (role_after ..))
  | hold w g cb hw =>
    refine fiberSteps_release (hphase g) hw (fun e he => view_setState_of_ne he .HOLD) ?_
    rw [view_release, view_setState]
    exact .hold w cb ((view_role hw g).trans (role_after ..))
  | reset w g cb hw hst =>
    refine fiberSteps_setState .top hw ?_ fun hg => ⟨role_after_of_ne hg .., rfl⟩
    exact .reset w cb ((view_role hw g).trans (role_after ..)) hst
  | idleIn w hw =>
    refine fiberSteps_setPc .idling hw (.inl rfl) ?_
    unfold view
    rfl
  | idleOut w term hw =>
    refine fiberSteps_setPc .top hw (.inl rfl) ?_
    exact view_idleOut s w _ term f

def Guarded (s : Scheduler n Cb) : Prop :=
  ∀ f, (view f s).Phase ∧ (view f s).pending ≤ (view f s).wakes

theorem guarded_init : Guarded (init : Scheduler n Cb) := by
  intro f
  have hfresh : view f (init : Scheduler n Cb) = View.fresh := by
    simp [view, init, View.fresh, entries, role]
  rw [hfresh]
  exact ⟨.fresh rfl, View.pending_fresh.le⟩

theorem guarded_step {m : Move n Cb} (h : Guarded s) (hdisc : Disciplined s m)
    (htimely : TimelyMove s m) (hs : step tid s m = .ok s') : Guarded s' := by
  intro f
  have hsteps := fiberSteps_effect (fun g => (h g).1) (step_effect hs) hdisc htimely f
  exact View.phase_steps (h f).1 (h f).2 hsteps

theorem no_fault (h : Guarded s) : ¬ Fault s := by
  intro hfault
  cases hfault with
  | swapIn w t f cb hw hf =>
    exact (h f).1.state_ne_exec ((view_role hw f).trans (role_running ..)) hf
  | yield w t f cb hw hf =>
    obtain ⟨c, -, -, hexec⟩ := (h f).1.run_of_role ((view_role hw f).trans (role_running ..)) rfl
    exact hf hexec
  | prepare w t f hw hcb hf =>
    exact hf ((h f).1.kept_of_owns (view_role hw f) (decide_eq_true hcb)).state
  | reset w f cb hw hf =>
    obtain ⟨c, -, -, -, hended⟩ := (h f).1.run_of_role ((view_role hw f).trans (role_after ..)) rfl
    exact hf (resettable_of_ended hended)

/-- The worker is inside the fiber, or has not finished switching out of it. -/
def inContext (f : ℕ) : Pc Cb → Bool
  | .running .inside _ g _ | .running .leaving _ g _ => g = f
  | _ => false

theorem engaged_of_inContext {pc : Pc Cb} (h : inContext f pc) : (role f pc).engaged := by
  unfold inContext at h
  split at h
  · rw [of_decide_eq_true h, role_running]
    rfl
  · rw [of_decide_eq_true h, role_running]
    rfl
  · cases h

/-- A fiber has one worker in it at most, and no assertion fails. -/
structure Exclusive (tid : Fin n → ℤ) (s : Scheduler n Cb) : Prop where
  one_inside : ∀ f w w', inContext f (s.workers w).pc → inContext f (s.workers w').pc → w = w'
  no_fault : ∀ m, step tid s m ≠ .error .assertFailed

theorem exclusive_of_guarded (h : Guarded s) : Exclusive tid s where
  one_inside := fun f _ _ hw hw' =>
    (h f).1.engaged_unique (engaged_of_inContext hw) (engaged_of_inContext hw')
  no_fault := fun _ hm => no_fault h (fault_of_step hm)

theorem one_worker_inside (tid : Fin n → ℤ) (ms : List (Move n Cb))
    (hdisc : Each (step tid) Disciplined init ms) (htimely : Each (step tid) TimelyMove init ms) :
    Along (step tid) (Exclusive tid) init ms := by
  apply Along.mono fun s (h : Guarded s) => exclusive_of_guarded h
  apply along_of_each Guarded fun s m => Disciplined s m ∧ TimelyMove s m
  · intro s m s' h hC hs
    exact guarded_step h hC.1 hC.2 hs
  · exact guarded_init
  · exact hdisc.and htimely

/-- A fiber is woken while it is executing and goes on to `YieldToHold`; the second worker
enters it when the first has left it, and it yields to `READY`. -/
def wokenEarly : List (Move 2 Unit) :=
  [.newFiber, .schedule [(some (.fiber 0), -1)], .dequeue first, .check first, .swapIn first,
    .schedule [(some (.fiber 0), -1)], .dequeue second, .yieldToHold first, .swapOut first,
    .decrement first, .settle first, .settle first, .idleIn second, .idleOut second false,
    .settle first, .dequeue second, .check second, .swapIn second, .yieldToReady second,
    .swapOut second, .decrement second, .settle second, .dequeue first, .settle second]

theorem one_worker_inside_woken_early :
    (wokenEarly.foldlM (step ![10, 11]) init).isOk ∧
      Along (step ![10, 11]) (Exclusive ![10, 11]) init wokenEarly :=
  ⟨by decide +kernel,
    one_worker_inside ![10, 11] wokenEarly (by decide +kernel) (by decide +kernel)⟩

/-- The first worker keeps its `cb_fiber` when the function has ended. A late wake-up of
that fiber brings the second worker to it while the first runs its next function in it. -/
def wokenLate : List (Move 2 Unit) :=
  [.schedule [(some (.cb ()), -1)], .dequeue first, .check first, .prepare first, .swapIn first,
    .finish first false, .swapOut first, .decrement first, .settle first, .settle first,
    .settle first, .schedule [(some (.fiber 0), -1)], .schedule [(some (.cb ()), -1)],
    .dequeue second, .check second, .dequeue first, .check first, .prepare first, .swapIn first,
    .swapIn second]

theorem kept_fiber_entered_twice :
    ¬ ∀ (n : ℕ) (tid : Fin n → ℤ) (ms : List (Move n Unit)),
      Each (step tid) Disciplined init ms → Along (step tid) (Exclusive tid) init ms := by
  intro hall
  have halong := hall 2 ![10, 11] wokenLate (by decide +kernel)
  exact halong.ne_error (fun s m hs => hs.no_fault m) rfl

/-- The second worker enters a fiber that has yielded to `READY` before the first tests its
state, which then marks it `HOLD`. -/
def wokenReady : List (Move 2 Unit) :=
  [.newFiber, .schedule [(some (.fiber 0), -1)], .dequeue first, .check first, .swapIn first,
    .yieldToReady first, .swapOut first, .decrement first, .schedule [(some (.fiber 0), -1)],
    .dequeue second, .check second, .swapIn second, .settle first, .settle first, .settle first,
    .yieldToHold second]

example : Each (step ![10, 11]) Disciplined init wokenReady ∧
    wokenReady.foldlM (step ![10, 11]) init = .error .assertFailed :=
  ⟨by decide +kernel, rfl⟩

end Scheduler

end Sylar
