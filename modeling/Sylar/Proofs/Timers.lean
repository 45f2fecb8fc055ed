import Sylar.Proofs.TimeWheel

/-! Runs of the timer manager. `listExpiredCb` gives the lock back between its scan and each turn
of its loop, so these are steps of their own, and several calls may be in their loops; a call is a
run of them. What a step does to the wheel and the deadlines is one of three things: nothing, an
insertion, a scan. -/

namespace Sylar

open Lib

open scoped List

namespace TimerManager

variable {Cb : Type}

inductive Op (Cb : Type) where
  | addTimer (ms : ℕ) (cb : Option Cb) (recurring : Bool) (t₁ t₂ : ℕ)
  | refresh (timer t₁ t₂ : ℕ)
  | reset (timer ms : ℕ) (from_now : Bool) (t₁ t₂ : ℕ)
  | cancel (timer : ℕ)
  | takeExpired (now now_ms : ℕ)
  | handOut (call t : ℕ)

/-- `calls` are the calls of `listExpiredCb` in their loop, each with its `now_ms` and the
timers it has yet to hand out. The rest is a record: the last reading of the clock, the
timers for which `cancel` returned true, those the wheel took, and what was handed out. -/
structure Run (Cb : Type) where
  m : TimerManager Cb
  calls : List (ℕ × List ℕ)
  clock : ℕ
  cancelled : List ℕ
  accepted : List ℕ
  handed : List (ℕ × Option Cb)

namespace Run

def init : Run Cb := ⟨.new, [], 0, [], [], []⟩

def contents (s : Run Cb) : List ℕ := s.m.m_timeWheel.contents

def pending (s : Run Cb) : List ℕ := s.calls.flatMap Prod.snd

/-- The timers that were handed out, one entry for each time. -/
def delivered (s : Run Cb) : List ℕ := s.handed.map Prod.fst

end Run

/-- What a step is about to do to the wheel: insert `timer` with the deadline `d` when the
clock reads `t`, or scan. -/
inductive Effect where
  | none
  | insert (timer d t : ℕ)
  | scan (now now_ms : ℕ)
deriving DecidableEq

def effect (s : Run Cb) : Op Cb → Effect
  | .addTimer ms _ _ t₁ t₂ => .insert s.m.timers.length (deadline t₁ ms) t₂
  | .refresh x t₁ t₂ =>
      match s.m.timers[x]? with
      | none => .none
      | some τ => if τ.m_cb.isNone then .none else .insert x (deadline t₁ τ.m_ms) t₂
  | .reset x ms from_now t₁ t₂ =>
      match s.m.timers[x]? with
      | none => .none
      | some τ =>
          if ms = τ.m_ms ∧ !from_now then .none
          else if τ.m_cb.isNone then .none
          else .insert x (resetDeadline τ ms from_now t₁) t₂
  | .cancel _ => .none
  | .takeExpired now now_ms => .scan now now_ms
  | .handOut c t =>
      match s.calls[c]? with
      | some (now_ms, x :: _) =>
          match s.m.timers[x]? with
          | none => .none
          | some τ => if τ.m_recurring then .insert x (deadline now_ms τ.m_ms) t else .none
      | _ => .none

/-- The readings of the clock and the insertions are recorded. -/
def Run.note (s : Run Cb) : Effect → Run Cb
  | .none => s
  | .insert x d t => { s with clock := t, accepted := if t ≤ d then x :: s.accepted else s.accepted }
  | .scan _ now_ms => { s with clock := now_ms }

def perform (s : Run Cb) : Op Cb → Except TimerFault (Run Cb)
  | .addTimer ms cb recurring t₁ t₂ => .ok { s with m := (s.m.addTimer ms cb recurring t₁ t₂).2 }
  | .refresh x t₁ t₂ => do
      let r ← s.m.refresh x t₁ t₂
      .ok { s with m := r.2 }
  | .reset x ms from_now t₁ t₂ => do
      let r ← s.m.reset x ms from_now t₁ t₂
      .ok { s with m := r.2 }
  | .cancel x => do
      let r ← s.m.cancel x
      .ok { s with m := r.2, cancelled := if r.1 then x :: s.cancelled else s.cancelled }
  | .takeExpired now now_ms => do
      let r ← s.m.takeExpired now
      .ok { s with m := r.2, calls := s.calls ++ [(now_ms, r.1)] }
  | .handOut c t =>
      match s.calls[c]? with
      | some (now_ms, x :: rest) => do
          let r ← s.m.handOut now_ms x t
          .ok { s with m := r.2, calls := s.calls.set c (now_ms, rest), handed := s.handed ++ [(x, r.1)] }
      | _ => .error .noTimer

def step (s : Run Cb) (o : Op Cb) : Except TimerFault (Run Cb) := do
  let s' ← perform s o
  .ok (s'.note (effect s o))

def next (m : TimerManager Cb) (y : ℕ) : ℕ := (m.timers[y]?).elim 0 Timer.m_next

/-- What a step with this effect does to the wheel and the deadlines. -/
def Applies (s s' : Run Cb) : Effect → Prop
  | .none => s'.m.m_timeWheel = s.m.m_timeWheel ∧ (∀ y, next s'.m y = next s.m y) ∧
      s'.clock = s.clock ∧ s'.accepted = s.accepted
  | .insert x d t => s'.m.m_timeWheel = (s.m.m_timeWheel.addTimer x d t).2 ∧
      (∀ y, next s'.m y = if y = x then d else next s.m y) ∧ s'.clock = t ∧
      s'.accepted = if t ≤ d then x :: s.accepted else s.accepted
  | .scan now now_ms => ∃ expired,
      s.m.m_timeWheel.getExpiredTimers now = some (expired, s'.m.m_timeWheel) ∧
      s'.m.timers = s.m.timers ∧ s'.clock = now_ms ∧ s'.accepted = s.accepted ∧
      s'.calls = s.calls ++ [(now_ms, expired)] ∧ s'.handed = s.handed

variable {m : TimerManager Cb} {s s' : Run Cb}

theorem timerAt_ok {x : ℕ} {τ : Timer Cb} (h : m.timerAt x = .ok τ) : m.timers[x]? = some τ := by
  rw [timerAt] at h
  split at h
  · exact absurd h (by rintro ⟨⟩)
  · rename_i τ' hτ
    rw [hτ, Except.ok.inj h]

theorem getElem?_write {x : ℕ} {τ : Timer Cb} (h : m.timers[x]? = some τ) (τ' : Timer Cb) (y : ℕ) :
    (m.timers.set x τ')[y]? = if y = x then some τ' else m.timers[y]? := by
  obtain ⟨hx, -⟩ := List.getElem?_eq_some_iff.mp h
  rw [List.getElem?_set]
  by_cases hxy : x = y
  · subst hxy
    simp [hx]
  · simp [hxy, Ne.symm hxy]

theorem getElem?_made (m : TimerManager Cb) (ms : ℕ) (cb : Option Cb) (recurring : Bool)
    (t₁ t₂ y : ℕ) :
    (m.addTimer ms cb recurring t₁ t₂).2.timers[y]? =
      if y = m.timers.length then some (Timer.new ms cb recurring t₁) else m.timers[y]? := by
  have htimers : (m.addTimer ms cb recurring t₁ t₂).2.timers =
      m.timers ++ [Timer.new ms cb recurring t₁] := by
    rw [addTimer, place]
    simp
  rw [htimers]
  by_cases hy : y = m.timers.length
  · subst hy
    simp
  · rcases Nat.lt_or_gt_of_ne hy with hlt | hgt
    · simp [hy, List.getElem?_append_left hlt]
    · rw [if_neg hy, List.getElem?_eq_none (by simp; omega), List.getElem?_eq_none hgt.le]

theorem next_made (m : TimerManager Cb) (ms : ℕ) (cb : Option Cb) (recurring : Bool)
    (t₁ t₂ y : ℕ) : next (m.addTimer ms cb recurring t₁ t₂).2 y =
      if y = m.timers.length then deadline t₁ ms else next m y := by
  rw [next, next, getElem?_made]
  split
  · rfl
  · rfl

theorem next_write {x : ℕ} {τ : Timer Cb} (h : m.timers[x]? = some τ) (τ' : Timer Cb)
    {w : TimeWheel} {b : Bool} (y : ℕ) :
    next ⟨w, b, m.timers.set x τ'⟩ y = if y = x then τ'.m_next else next m y := by
  rw [next, next, getElem?_write h]
  split
  · rfl
  · rfl

theorem next_same {x : ℕ} {τ : Timer Cb} (h : m.timers[x]? = some τ) (cb : Option Cb)
    {w : TimeWheel} {b : Bool} (y : ℕ) :
    next ⟨w, b, m.timers.set x { τ with m_cb := cb }⟩ y = next m y := by
  rw [next_write h]
  split
  · rename_i hy
    rw [hy, next, h]
    rfl
  · rfl

theorem effect_handOut {c t now_ms x : ℕ} {rest : List ℕ} {τ : Timer Cb}
    (hc : s.calls[c]? = some (now_ms, x :: rest)) (hx : s.m.timers[x]? = some τ) :
    effect s (.handOut c t) =
      if τ.m_recurring then .insert x (deadline now_ms τ.m_ms) t else .none := by
  simp only [effect, hc, hx]

/-- The timer whose `refresh`, `reset` or `cancel` is called. -/
def Op.timer : Op Cb → Option ℕ
  | .refresh x _ _ | .reset x _ _ _ _ | .cancel x => some x
  | .addTimer _ _ _ _ _ | .takeExpired _ _ | .handOut _ _ => none

inductive Outcome (s : Run Cb) : Op Cb → Run Cb → Prop where
  | made (ms : ℕ) (cb : Option Cb) (recurring : Bool) (t₁ t₂ : ℕ) :
      Outcome s (.addTimer ms cb recurring t₁ t₂)
        (Run.note { s with m := (s.m.addTimer ms cb recurring t₁ t₂).2 }
          (.insert s.m.timers.length (deadline t₁ ms) t₂))
  /-- `refresh` and `reset` of a timer with a callback. -/
  | moved {o : Op Cb} {x t : ℕ} {τ τ' : Timer Cb} : o.timer = some x →
      s.m.timers[x]? = some τ → τ.m_cb.isSome → τ'.m_cb = τ.m_cb → τ'.m_recurring = τ.m_recurring →
      effect s o = .insert x τ'.m_next t →
      Outcome s o (Run.note { s with m := (s.m.place x τ' t).2 } (.insert x τ'.m_next t))
  /-- `refresh`, `reset` and `cancel` of a timer without one, and `reset` to the period it has. -/
  | ignored {o : Op Cb} {x : ℕ} : o.timer = some x → effect s o = .none → Outcome s o s
  | cancelled {x : ℕ} {τ : Timer Cb} : s.m.timers[x]? = some τ → τ.m_cb.isSome →
      Outcome s (.cancel x)
        { s with
          m := { s.m with timers := s.m.timers.set x { τ with m_cb := none } }
          cancelled := x :: s.cancelled }
  | scanned {now : ℕ} (now_ms : ℕ) {expired : List ℕ} {w : TimeWheel} :
      s.m.m_timeWheel.getExpiredTimers now = some (expired, w) →
      Outcome s (.takeExpired now now_ms)
        (Run.note { s with
          m := { s.m with m_timeWheel := w }
          calls := s.calls ++ [(now_ms, expired)] } (.scan now now_ms))
  | again {c now_ms x : ℕ} {rest : List ℕ} {τ : Timer Cb} (t : ℕ) :
      s.calls[c]? = some (now_ms, x :: rest) → s.m.timers[x]? = some τ → τ.m_recurring →
      Outcome s (.handOut c t)
        (Run.note { s with
          m := (s.m.place x { τ with m_next := deadline now_ms τ.m_ms } t).2
          calls := s.calls.set c (now_ms, rest)
          handed := s.handed ++ [(x, τ.m_cb)] } (.insert x (deadline now_ms τ.m_ms) t))
  | once {c now_ms x : ℕ} {rest : List ℕ} {τ : Timer Cb} (t : ℕ) :
      s.calls[c]? = some (now_ms, x :: rest) → s.m.timers[x]? = some τ → ¬ τ.m_recurring →
      Outcome s (.handOut c t)
        { s with
          m := { s.m with timers := s.m.timers.set x { τ with m_cb := none } }
          calls := s.calls.set c (now_ms, rest)
          handed := s.handed ++ [(x, τ.m_cb)] }

theorem step_outcome {o : Op Cb} (h : step s o = .ok s') : Outcome s o s' := by
  obtain ⟨s₁, hperform, hnote⟩ := ok_of_bind h
  obtain rfl := Except.ok.inj hnote
  cases o with
  | addTimer ms cb recurring t₁ t₂ =>
    obtain rfl := Except.ok.inj hperform
    exact .made ms cb recurring t₁ t₂
  | refresh x t₁ t₂ =>
    obtain ⟨r, hrefresh, hperform⟩ := ok_of_bind hperform
    obtain rfl := Except.ok.inj hperform
    obtain ⟨τ, hτ, hrefresh⟩ := ok_of_bind hrefresh
    have hx := timerAt_ok hτ
    split at hrefresh
    · rename_i hcb
      obtain rfl := Except.ok.inj hrefresh
      have heff : effect s (.refresh x t₁ t₂) = .none := by simp [effect, hx, hcb]
      rw [heff]
      exact .ignored rfl heff
    · rename_i hcb
      obtain rfl := Except.ok.inj hrefresh
      have heff : effect s (.refresh x t₁ t₂) = .insert x (deadline t₁ τ.m_ms) t₂ := by
        simp [effect, hx, hcb]
      rw [heff]
      exact .moved rfl hx (by simpa [Option.isSome_iff_ne_none] using hcb) rfl rfl heff
  | reset x ms from_now t₁ t₂ =>
    obtain ⟨r, hreset, hperform⟩ := ok_of_bind hperform
    obtain rfl := Except.ok.inj hperform
    obtain ⟨τ, hτ, hreset⟩ := ok_of_bind hreset
    have hx := timerAt_ok hτ
    split at hreset
    · rename_i hsame
      obtain rfl := Except.ok.inj hreset
      have heff : effect s (.reset x ms from_now t₁ t₂) = .none := by
        simp only [effect, hx, if_pos hsame]
      rw [heff]
      exact .ignored rfl heff
    · rename_i hsame
      split at hreset
      · rename_i hcb
        obtain rfl := Except.ok.inj hreset
        have heff : effect s (.reset x ms from_now t₁ t₂) = .none := by
          simp only [effect, hx, if_neg hsame, if_pos hcb]
        rw [heff]
        exact .ignored rfl heff
      · rename_i hcb
        obtain rfl := Except.ok.inj hreset
        have heff : effect s (.reset x ms from_now t₁ t₂) =
            .insert x (resetDeadline τ ms from_now t₁) t₂ := by
          simp only [effect, hx, if_neg hsame, if_neg hcb]
        rw [heff]
        exact .moved rfl hx (by simpa [Option.isSome_iff_ne_none] using hcb) rfl rfl heff
  | cancel x =>
    obtain ⟨r, hcancel, hperform⟩ := ok_of_bind hperform
    obtain rfl := Except.ok.inj hperform
    obtain ⟨τ, hτ, hcancel⟩ := ok_of_bind hcancel
    split at hcancel
    · rename_i hcb
      obtain rfl := Except.ok.inj hcancel
      exact .cancelled (timerAt_ok hτ) hcb
    · obtain rfl := Except.ok.inj hcancel
      exact .ignored rfl rfl
  | takeExpired now now_ms =>
    obtain ⟨r, htake, hperform⟩ := ok_of_bind hperform
    obtain rfl := Except.ok.inj hperform
    rw [takeExpired] at htake
    split at htake
    · exact absurd htake (by rintro ⟨⟩)
    · rename_i expired w hget
      obtain rfl := Except.ok.inj htake
      exact .scanned now_ms hget
  | handOut c t =>
    rw [perform] at hperform
    split at hperform
    · rename_i now_ms x rest hc
      obtain ⟨r, hhand, hperform⟩ := ok_of_bind hperform
      obtain rfl := Except.ok.inj hperform
      obtain ⟨τ, hτ, hhand⟩ := ok_of_bind hhand
      have hx := timerAt_ok hτ
      split at hhand
      · rename_i hrec
        obtain rfl := Except.ok.inj hhand
        rw [effect_handOut hc hx, if_pos hrec]
        exact .again t hc hx hrec
      · rename_i hrec
        obtain rfl := Except.ok.inj hhand
        rw [effect_handOut hc hx, if_neg hrec]
        exact .once t hc hx hrec
    · exact absurd hperform (by rintro ⟨⟩)

theorem step_applies {o : Op Cb} (h : step s o = .ok s') : Applies s s' (effect s o) := by
  cases step_outcome h with
  | made ms cb recurring t₁ t₂ => exact ⟨rfl, next_made s.m ms cb recurring t₁ t₂, rfl, rfl⟩
  | moved _ hx _ _ _ heff =>
    rw [heff]
    exact ⟨rfl, next_write hx _, rfl, rfl⟩
  | ignored _ heff =>
    rw [heff]
    exact ⟨rfl, fun _ => rfl, rfl, rfl⟩
  | cancelled hx _ => exact ⟨rfl, next_same hx none, rfl, rfl⟩
  | scanned now_ms hget => exact ⟨_, hget, rfl, rfl, rfl, rfl, rfl⟩
  | again t hc hx hrec =>
    rw [effect_handOut hc hx, if_pos hrec]
    exact ⟨rfl, next_write hx _, rfl, rfl⟩
  | once t hc hx hrec =>
    rw [effect_handOut hc hx, if_neg hrec]
    exact ⟨rfl, next_same hx none, rfl, rfl⟩

theorem handOutAll_run (now_ms c : ℕ) (expired : List (ℕ × ℕ)) : ∀ {s : Run Cb}
    {cbs : List (Option Cb)} {m' : TimerManager Cb},
    s.calls[c]? = some (now_ms, expired.map Prod.fst) →
    handOutAll now_ms s.m expired = .ok (cbs, m') →
    ∃ s', (expired.map fun e => Op.handOut c e.2).foldlM step s = .ok s' ∧ s'.m = m' ∧
      s'.handed = s.handed ++ (expired.map Prod.fst).zip cbs := by
  induction expired with
  | nil =>
    intro s cbs m' _ h
    obtain ⟨rfl, rfl⟩ := Prod.mk.inj (Except.ok.inj h)
    exact ⟨s, rfl, rfl, by simp⟩
  | cons e expired ih =>
    intro s cbs m' hc h
    obtain ⟨⟨cb, m₁⟩, hhand, h⟩ := ok_of_bind h
    obtain ⟨⟨cbs₁, m₂⟩, hall, h⟩ := ok_of_bind h
    obtain ⟨rfl, rfl⟩ := Prod.mk.inj (Except.ok.inj h)
    have hstep : ∃ s₁, step s (.handOut c e.2) = .ok s₁ ∧ s₁.m = m₁ ∧
        s₁.calls = s.calls.set c (now_ms, expired.map Prod.fst) ∧
        s₁.handed = s.handed ++ [(e.1, cb)] := by
      refine ⟨Run.note { s with
        m := m₁
        calls := s.calls.set c (now_ms, expired.map Prod.fst)
        handed := s.handed ++ [(e.1, cb)] } (effect s (.handOut c e.2)), ?_, ?_, ?_, ?_⟩
      · rw [step, perform, hc]
        simp only [List.map_cons, hhand]
        rfl
      · cases effect s (.handOut c e.2) <;> rfl
      · cases effect s (.handOut c e.2) <;> rfl
      · cases effect s (.handOut c e.2) <;> rfl
    obtain ⟨s₁, hs₁, rfl, hcalls, hhanded⟩ := hstep
    have hc' : s₁.calls[c]? = some (now_ms, expired.map Prod.fst) := by
      rw [hcalls, List.getElem?_set_self (List.getElem?_eq_some_iff.mp hc).1]
    obtain ⟨s', hrun, hm, hhanded'⟩ := ih hc' hall
    refine ⟨s', ?_, hm, ?_⟩
    · rw [List.map_cons, List.foldlM_cons, hs₁]
      exact hrun
    · rw [hhanded', hhanded]
      simp

theorem listExpiredCb_run {now now_ms : ℕ} {ts : ℕ → ℕ} {cbs : List (Option Cb)}
    {m' : TimerManager Cb} (h : s.m.listExpiredCb now now_ms ts = .ok (cbs, m')) :
    ∃ os s', (Op.takeExpired now now_ms :: os).foldlM step s = .ok s' ∧ s'.m = m' ∧
      ∃ expired : List ℕ, s'.handed = s.handed ++ expired.zip cbs := by
  obtain ⟨⟨expired, m₁⟩, htake, h⟩ := ok_of_bind h
  have hstep : step s (.takeExpired now now_ms) = .ok { s with
      m := m₁
      calls := s.calls ++ [(now_ms, expired)]
      clock := now_ms } := by
    rw [step, perform, htake]
    rfl
  have hfst : (expired.zipIdx.map fun x => (x.1, ts x.2)).map Prod.fst = expired := by
    rw [List.map_map]
    exact List.zipIdx_map_fst 0 expired
  obtain ⟨s', hrun, hm, hhanded⟩ := handOutAll_run now_ms s.calls.length
    (expired.zipIdx.map fun x => (x.1, ts x.2))
    (s := { s with m := m₁, calls := s.calls ++ [(now_ms, expired)], clock := now_ms })
    (by rw [hfst]; simp) h
  have hall : (Op.takeExpired now now_ms :: (expired.zipIdx.map fun x => (x.1, ts x.2)).map
      fun e => Op.handOut s.calls.length e.2).foldlM step s = .ok s' := by
    rw [List.foldlM_cons, hstep]
    exact hrun
  exact ⟨_, s', hall, hm, _, hhanded⟩

end TimerManager

end Sylar
