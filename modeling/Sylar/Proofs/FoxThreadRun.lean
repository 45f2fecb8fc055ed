import Sylar.Proofs.FoxThreadPool

/-! No wake-up is lost: what waits in `m_callbacks` of a thread has been announced to it, and
while the pool has a free thread and something to run, somebody is about to look. So when nobody
can take a step, everything has been run. -/

namespace Sylar

open Lib

namespace FoxThreadPool

open FoxThread (Callback Pc Ordered SameQueue)

variable {n : ℕ} {Cb : Type} {body : Cb → List (Call n Cb)} {s : FoxThreadPool n Cb} {k w : ℕ}
  {i : Instr n Cb} {t : CallTurn n Cb}

theorem exec_resumed (h : exec body s k () i w = .ok t) : t.resumed = none := by
  cases exec_booked h <;> rfl

/-- Whoever pushes has still to send, and whoever sends leaves a byte in the socket. -/
theorem exec_announced (h : exec body s k () i w = .ok t) (u : Fin (n + 1)) (m : ℕ) (cb : Callback Cb)
    (ha : some cb ∈ (s.m_threads u).m_callbacks → (s.m_threads u).announced (sends u () i + m))
    (hcb : some cb ∈ (t.shared.m_threads u).m_callbacks) :
    (t.shared.m_threads u).announced (paid (sends u) t + m) := by
  cases exec_effect h with
  | push v cbs =>
    by_cases hvu : v = u
    · exact .inr (.inr (by simp [sends, hvu]))
    · simp only [shared_only, setThread_other s hvu] at hcb ⊢
      simpa [sends, hvu] using ha hcb
  | stop v th hth =>
    by_cases hvu : v = u
    · subst hvu
      obtain ⟨hle, hm, -, hpc, -⟩ := FoxThread.stop_same hth
      simp only [shared_only, setThread_self] at hcb ⊢
      rw [hm] at hcb
      have hcb' : some cb ∈ (s.m_threads v).m_callbacks := by simpa [FoxThread.push] using hcb
      rcases ha hcb' with hbytes | hrecv | hsend
      · exact .inl (hbytes.trans_le hle)
      · exact .inr (.inl (hpc.trans hrecv))
      · exact .inr (.inr (by simpa [sends] using hsend))
    · simp only [shared_only, setThread_other s hvu] at hcb ⊢
      simpa [sends] using ha hcb
  | read_cb v th next hr =>
    refine FoxThread.announced.mono (m := 0 + m) ?_ (Nat.add_le_add_right (Nat.zero_le _) m)
    by_cases hvu : v = u
    · subst hvu
      simp only [shared_only, setThread_self] at hcb ⊢
      exact FoxThread.read_announced (m := 0 + m) hr ha hcb
    · simp only [shared_only, setThread_other s hvu] at hcb ⊢
      exact ha hcb
  | send v th hth =>
    by_cases hvu : v = u
    · subst hvu
      left
      simpa using FoxThread.send_bytes hth
    · simp only [shared_only, setThread_other s hvu] at hcb ⊢
      simpa [sends, hvu] using ha hcb
  | _ =>
    obtain ⟨hle, hm, -, hpc, -⟩ := exec_same h rfl u
    rcases ha (hm ▸ hcb) with hbytes | hrecv | hsend
    · exact .inl (hbytes.trans_le hle)
    · exact .inr (.inl (hpc.trans hrecv))
    · exact .inr (.inr (Nat.lt_of_lt_of_le (by simpa [sends] using hsend) (Nat.le_add_left m _)))

def launches (u : Fin (n + 1)) : Unit → Instr n Cb → ℕ
  | _, .startFrom j => if u < j then 1 else 0
  | _, .launch t | _, .free t => if u ≤ t then 1 else 0
  | _, _ => 0

def running (s : FoxThreadPool n Cb) : ℕ := if s.m_start then 1 else 0

theorem launches_code (u : Fin (n + 1)) (cs : List (Call n Cb)) :
    ((cs.map Call.code).map (launches u ())).sum = 0 := by
  refine List.sum_eq_zero fun m hm => ?_
  obtain ⟨i, hi, rfl⟩ := List.mem_map.mp hm
  obtain ⟨c, -, rfl⟩ := List.mem_map.mp hi
  cases c <;> rfl

theorem mem_roundRobin {cbs : List Cb} : ∀ {m_cur : ℕ} {i : Instr n Cb}, i ∈ roundRobin m_cur cbs →
    ∃ t cbs, i = .push t cbs := by
  induction cbs with
  | nil =>
    intro m_cur i hi
    exact absurd hi List.not_mem_nil
  | cons cb cbs ih =>
    intro m_cur i hi
    rcases List.mem_cons.mp hi with rfl | hi
    · exact ⟨_, _, rfl⟩
    · exact ih hi

theorem launches_read {u v : Fin (n + 1)} {th th' : FoxThread Cb} {next : List (Instr n Cb)}
    (h : th.read_cb body v w = .ok (th', next)) : (next.map (launches u ())).sum = 0 := by
  refine sum_eq_zero_of fun i hi => ?_
  rcases mem_read h hi with rfl | rfl | ⟨-, c, -, rfl⟩
  · rfl
  · rfl
  · cases c <;> rfl

theorem launches_roundRobin (u : Fin (n + 1)) (m_cur : ℕ) (cbs : List Cb) :
    ((roundRobin m_cur cbs).map (launches u ())).sum = 0 := by
  refine sum_eq_zero_of fun i hi => ?_
  obtain ⟨t, cbs, rfl⟩ := mem_roundRobin hi
  rfl

theorem ours_le (th : FoxThread Cb) : ours th ≤ 1 := by
  unfold ours
  split <;> omega

theorem pooled_setThread (s : FoxThreadPool n Cb) (t : Fin (n + 1)) {th : FoxThread Cb}
    (h : th.pooled = (s.m_threads t).pooled) (u : Fin (n + 1)) :
    ((s.setThread t th).m_threads u).pooled = (s.m_threads u).pooled := by
  rw [setThread_apply]
  split
  · next hu => exact hu ▸ h
  · rfl

def starting : Instr n Cb → Bool
  | .startFrom _ | .launch _ | .free _ | .stopFrom _ => true
  | _ => false

/-- A step that leaves the start of the pool alone. -/
structure Aside (s : FoxThreadPool n Cb) (t : CallTurn n Cb) : Prop where
  m_start_eq : t.shared.m_start = s.m_start
  pooled_eq : ∀ u, (t.shared.m_threads u).pooled = (s.m_threads u).pooled
  paid_eq : ∀ u, paid (launches u) t = 0

theorem exec_aside (h : exec body s k () i w = .ok t) (hi : starting i = false) : Aside s t := by
  have hset : ∀ (v : Fin (n + 1)) (th : FoxThread Cb), th.pooled = (s.m_threads v).pooled →
      ∀ u, ((s.setThread v th).m_threads u).pooled = (s.m_threads u).pooled :=
    fun v th h => pooled_setThread s v h
  cases exec_effect h with
  | roundRobin cbs hm => exact ⟨rfl, fun _ => rfl, fun u => launches_roundRobin u _ _⟩
  | take v cb free cbs hfree hcb => exact ⟨rfl, hset _ _ rfl, fun _ => rfl⟩
  | assign v cb hm => exact ⟨rfl, hset _ _ rfl, fun _ => rfl⟩
  | drop v =>
    refine ⟨rfl, hset _ _ rfl, fun u => ?_⟩
    rw [paid_only]
    split <;> rfl
  | push v cbs => exact ⟨rfl, hset _ _ rfl, fun _ => rfl⟩
  | send v th hth => exact ⟨rfl, hset _ _ (send_books hth).pooled_eq, fun _ => rfl⟩
  | stop v th hth => exact ⟨rfl, hset _ _ (stop_books hth).pooled_eq, fun _ => rfl⟩
  | start v hm => exact ⟨rfl, hset _ _ rfl, fun _ => rfl⟩
  | setStart v => exact ⟨rfl, hset _ _ rfl, fun _ => rfl⟩
  | read_cb v th next hr => exact ⟨rfl, hset _ _ (read_pooled hr), fun u => launches_read hr⟩
  | startFrom j hj hm => cases hi
  | startFromThrew j hj hm => cases hi
  | startFromEnd j hj => cases hi
  | launch v => cases hi
  | free v => cases hi
  | stopFrom j hj => cases hi
  | stopFromEnd j hj => cases hi
  | _ => exact ⟨rfl, fun _ => rfl, fun _ => rfl⟩

/-- Only one start of the pool gets past the first thread. Before it has reached a thread, that is not
of the pool, and when it is over, all are. -/
theorem exec_launched (h : exec body s k () i w = .ok t) (u : Fin (n + 1)) (m : ℕ)
    (hp : (s.m_threads u).pooled = true → (s.m_threads u).m_thread = true)
    (hl : launches u () i + m + running s ≤ ours (s.m_threads u)) :
    paid (launches u) t + m + running t.shared ≤ ours (t.shared.m_threads u) := by
  have hone := ours_le (s.m_threads u)
  cases exec_effect h with
  | startFrom j hj hm =>
    by_cases hju : ⟨j, hj⟩ = u
    · subst hju
      have hnot : ours (s.m_threads ⟨j, hj⟩) = 0 :=
        if_neg fun hpool => Bool.eq_false_iff.mp hm (hp hpool)
      have hzero : m = 0 ∧ running s = 0 := by omega
      simp [paid, Threads.total, launches, ours, hzero.1]
      exact hzero.2
    · have hne : (u : ℕ) ≠ j := fun heq => hju (Fin.ext heq.symm)
      have hiff : u ≤ ⟨j, hj⟩ ↔ (u : ℕ) < j := ⟨fun hle => lt_of_le_of_ne hle hne, fun hlt => hlt.le⟩
      have hpaid : ([(.launch ⟨j, hj⟩ : Instr n Cb)].map (launches u ())).sum =
          launches u () (.startFrom j : Instr n Cb) := by
        simp only [List.map_cons, List.map_nil, List.sum_cons, List.sum_nil, launches, hiff]
        omega
      simp only [paid, hpaid, setThread_other s hju]
      exact hl
  | startFromThrew j hj hm =>
    exact Nat.le_trans (Nat.add_le_add_right (Nat.add_le_add_right (Nat.zero_le _) m) _) hl
  | startFromEnd j hj =>
    have hlt : (u : ℕ) < j := by omega
    simp only [launches, if_pos hlt] at hl
    change 0 + m + 1 ≤ ours (s.m_threads u)
    omega
  | launch v =>
    have hpooled := pooled_setThread s v (rfl : { s.m_threads v with m_start := true }.pooled = _) u
    refine hl.trans (Nat.le_of_eq ?_)
    unfold ours
    rw [shared_only, hpooled]
  | free v =>
    have hiff : (u : ℕ) < (v : ℕ) + 1 ↔ u ≤ v := Nat.lt_succ_iff
    have hpaid : launches u () (.startFrom (v + 1) : Instr n Cb) =
        launches u () (.free v : Instr n Cb) := by
      simp only [launches, hiff]
    change launches u () (.startFrom (v + 1) : Instr n Cb) + 0 + m + running s ≤ ours (s.m_threads u)
    rw [hpaid]
    exact hl
  | stopFrom j hj => exact hl
  | stopFromEnd j hj =>
    change 0 + m + 0 ≤ ours (s.m_threads u)
    have hle : 0 + m + running s ≤ ours (s.m_threads u) := hl
    omega
  | _ =>
    obtain ⟨hstart, hpooled, hpaid⟩ := exec_aside h rfl
    unfold running ours at hl ⊢
    rw [hpaid, hstart, hpooled]
    exact hl

def checks : Unit → Instr n Cb → ℕ
  | _, .check | _, .take | _, .assign .. | _, .putBack .. | _, .release _ => 1
  | _, _ => 0

/-- A free thread and something to run meet only while somebody is about to look. -/
def Watched (s : FoxThreadPool n Cb) (looking : ℕ) : Prop :=
  s.m_start = true → s.m_freeFoxThreads ≠ [] → s.m_callbacks ≠ [] → 0 < looking

theorem exec_watched (h : exec body s k () i w = .ok t) (m : ℕ) (hfree : ∀ u, i = .free u → s.m_start = false)
    (hw : Watched s (checks () i + m)) : Watched t.shared (paid checks t + m) := by
  have hmono : ∀ {s' : FoxThreadPool n Cb} {next : List (Instr n Cb)}, Watched s' (0 + m) →
      Watched s' ((next.map (checks ())).sum + m) := fun h h₁ h₂ h₃ =>
    Nat.lt_of_lt_of_le (h h₁ h₂ h₃) (Nat.add_le_add_right (Nat.zero_le _) m)
  have hlook : ∀ {s' : FoxThreadPool n Cb} {next : List (Instr n Cb)}, 0 < (next.map (checks ())).sum →
      Watched s' (paid checks (.only s' next) + m) := fun hpos _ _ _ =>
    Nat.lt_of_lt_of_le hpos ((Nat.le_add_right _ _).trans (Nat.le_add_right _ m))
  cases exec_effect h with
  | post cbs hm => exact hlook (by simp [checks])
  | startFrom j hj hm => exact fun h₁ h₂ h₃ => hw h₁ h₂ h₃
  | startFromEnd j hj => exact hlook (by simp [checks])
  | launch v => exact fun h₁ h₂ h₃ => hw h₁ h₂ h₃
  | free v =>
    intro hstart
    exact absurd ((hfree v rfl).symm.trans hstart) Bool.false_ne_true
  | stopFromEnd j hj => exact fun hstart => absurd hstart Bool.false_ne_true
  | check hm => exact hlook (by simp [checks])
  | checkNot hm => exact fun hstart => absurd (hm.symm.trans hstart) Bool.false_ne_true
  | take v cb free cbs hfree hcb => exact hlook (by simp [checks])
  | takeNone hnone => exact fun _ hfree hcb => absurd hnone (not_or.mpr ⟨hfree, hcb⟩)
  | assign v cb hm => exact hlook (by simp [checks])
  | assignNot v cb hm => exact hlook (by simp [checks])
  | putBack v cb => exact hlook (by simp [checks])
  | release v => exact hlook (by simp [checks])
  | drop v => exact hmono fun h₁ h₂ h₃ => hw h₁ h₂ h₃
  | push v cbs => exact hmono fun h₁ h₂ h₃ => hw h₁ h₂ h₃
  | send v th hth => exact fun h₁ h₂ h₃ => hw h₁ h₂ h₃
  | stop v th hth => exact fun h₁ h₂ h₃ => hw h₁ h₂ h₃
  | start v hm => exact fun h₁ h₂ h₃ => hw h₁ h₂ h₃
  | setStart v => exact fun h₁ h₂ h₃ => hw h₁ h₂ h₃
  | read_cb v th next hr => exact hmono fun h₁ h₂ h₃ => hw h₁ h₂ h₃
  | _ => exact hmono hw

theorem read_pushed {u : Fin (n + 1)} {th th' : FoxThread Cb} {next : List (Instr n Cb)}
    (h : th.read_cb body u w = .ok (th', next)) : th'.pushed = th.pushed := by
  unfold FoxThread.read_cb at h
  split at h
  · split at h <;> cases h
    rfl
  · cases h
    rfl
  · split at h <;> (cases h; rfl)
  · cases h
    rfl
  · cases h

section Posted

variable [DecidableEq Cb]

def carries (cb : Cb) : Unit → Instr n Cb → ℕ
  | _, .assign _ cb' | _, .putBack _ cb' => [cb'].count cb
  | _, .push _ cbs => cbs.count (.wrapcb cb)
  | _, _ => 0

def given (s : FoxThreadPool n Cb) (cb : Cb) : ℕ :=
  ∑ u, (s.m_threads u).pushed.count (some (.wrapcb cb))

theorem given_setThread (s : FoxThreadPool n Cb) (t : Fin (n + 1)) (th : FoxThread Cb) (cb : Cb) :
    given (s.setThread t th) cb + (s.m_threads t).pushed.count (some (.wrapcb cb)) =
      given s cb + th.pushed.count (some (.wrapcb cb)) := by
  unfold given
  rw [← Finset.add_sum_erase _ _ (Finset.mem_univ t),
    ← Finset.add_sum_erase (f := fun u => (s.m_threads u).pushed.count (some (.wrapcb cb))) _
      (Finset.mem_univ t)]
  have hrest : ∑ u ∈ Finset.univ.erase t, ((s.setThread t th).m_threads u).pushed.count (some (.wrapcb cb)) =
      ∑ u ∈ Finset.univ.erase t, (s.m_threads u).pushed.count (some (.wrapcb cb)) := by
    refine Finset.sum_congr rfl fun u hu => ?_
    rw [setThread_other s (Finset.ne_of_mem_erase hu).symm]
  rw [setThread_self, hrest]
  omega

theorem given_same {s s' : FoxThreadPool n Cb} (h : ∀ u, SameQueue (s.m_threads u) (s'.m_threads u)) (cb : Cb) :
    given s' cb = given s cb :=
  Finset.sum_congr rfl fun u _ => by rw [(h u).pushed_eq]

theorem inner_carries (cb : Cb) : Inner (carries cb : Unit → Instr n Cb → ℕ) := by
  have hplain : ∀ cbs : List Cb, (cbs.map Callback.plain).count (.wrapcb cb) = 0 := by
    intro cbs
    refine List.count_eq_zero.mpr fun hmem => ?_
    obtain ⟨c, -, hc⟩ := List.mem_map.mp hmem
    cases hc
  constructor <;> intros <;> first | rfl | exact hplain _

theorem count_wrapcb (cb cb' : Cb) : [Callback.wrapcb cb'].count (.wrapcb cb) = [cb'].count cb := by
  simp [List.count_singleton]

theorem count_cons_split (c : Cb) (cbs : List Cb) (cb : Cb) :
    (c :: cbs).count cb = [c].count cb + cbs.count cb := by
  rw [← List.count_append]
  rfl

/-- What was dispatched to the pool waits, is on its way, or was given to a thread. -/
def Conserves (s : FoxThreadPool n Cb) (i : Instr n Cb) (t : CallTurn n Cb) (cb : Cb) : Prop :=
  t.shared.m_callbacks.count cb + paid (carries cb) t + given t.shared cb + s.posted.count cb =
    s.m_callbacks.count cb + carries cb () i + given s cb + t.shared.posted.count cb

theorem posted_of_same {cb : Cb} (hm : t.shared.m_callbacks = s.m_callbacks) (hp : t.shared.posted = s.posted)
    (hg : given t.shared cb = given s cb) (hpaid : paid (carries cb) t = carries cb () i) :
    Conserves s i t cb := by
  rw [Conserves, hm, hp, hg, hpaid]

theorem posted_take {cb c : Cb} {cbs : List Cb} {free : List (Fin (n + 1))} (v : Fin (n + 1))
    (hcb : s.m_callbacks = c :: cbs) (hgiven : given (s.setThread v { s.m_threads v with use_count := 1 }) cb =
      given s cb) : Conserves s .take
        (.only { s.setThread v { s.m_threads v with use_count := 1 } with
          m_freeFoxThreads := free
          m_callbacks := cbs } [.assign v c]) cb := by
  have hcount : (c :: cbs).count cb = [c].count cb + cbs.count cb := count_cons_split c cbs cb
  rw [Conserves, hcb, hcount]
  change cbs.count cb + [c].count cb + given (s.setThread v { s.m_threads v with use_count := 1 }) cb +
    s.posted.count cb = [c].count cb + cbs.count cb + 0 + given s cb + s.posted.count cb
  omega

theorem posted_putBack (v : Fin (n + 1)) (c cb : Cb) : Conserves s (.putBack v c)
    (.only { s with m_callbacks := c :: s.m_callbacks } [.drop v, .check]) cb := by
  have hcount : (c :: s.m_callbacks).count cb = [c].count cb + s.m_callbacks.count cb :=
    count_cons_split c _ cb
  change (c :: s.m_callbacks).count cb + 0 + given s cb + s.posted.count cb =
    s.m_callbacks.count cb + [c].count cb + given s cb + s.posted.count cb
  omega

theorem posted_push (v : Fin (n + 1)) (cbs : List (Callback Cb)) (cb : Cb) : Conserves s (.push v cbs)
    (.only (s.setThread v ((s.m_threads v).push (cbs.map some))) [.send v]) cb := by
  have hgiven := given_setThread s v ((s.m_threads v).push (cbs.map some)) cb
  have hcount : (cbs.map some).count (some (Callback.wrapcb cb)) = cbs.count (.wrapcb cb) :=
    List.count_map_of_injective cbs some (Option.some_injective _) _
  simp only [FoxThread.push, List.count_append, hcount] at hgiven
  simp [Conserves, carries] at hgiven ⊢
  change s.m_callbacks.count cb + given (s.setThread v ((s.m_threads v).push (cbs.map some))) cb +
    s.posted.count cb = s.m_callbacks.count cb + cbs.count (.wrapcb cb) + given s cb + s.posted.count cb
  simp only [FoxThread.push]
  omega

/-- What a thread does without a function of the pool being pushed to it. -/
theorem given_of_pushed {v : Fin (n + 1)} {th : FoxThread Cb} {rest : List (Option (Callback Cb))} {cb : Cb}
    (hpushed : th.pushed = (s.m_threads v).pushed ++ rest) (hrest : rest.count (some (.wrapcb cb)) = 0) :
    given (s.setThread v th) cb = given s cb := by
  have hgiven := given_setThread s v th cb
  rw [hpushed, List.count_append, hrest] at hgiven
  exact Nat.add_right_cancel hgiven

theorem exec_posted (h : exec body s k () i w = .ok t) (cb : Cb) : Conserves s i t cb := by
  have hv := inner_carries (n := n) cb
  cases exec_effect h with
  | post cbs hm =>
    have hgiven := given_same (exec_same h rfl) cb
    simp [Conserves, carries] at hgiven ⊢
    omega
  | roundRobin cbs hm =>
    have hgiven := given_same (exec_same h rfl) cb
    simp [Conserves, hv.roundRobin, carries] at hgiven ⊢
    omega
  | postTo id c =>
    refine posted_of_same rfl rfl (given_same (exec_same h rfl) cb) ?_
    rw [paid_only]
    simp [hv.pushOne, hv.postTo]
  | broadcast j c hj =>
    refine posted_of_same rfl rfl (given_same (exec_same h rfl) cb) ?_
    rw [paid_only]
    simp [hv.pushOne, hv.broadcast]
  | take v c free cbs hfree hcb => exact posted_take v hcb (given_same (exec_same h rfl) cb)
  | assign v c hm =>
    exact posted_of_same rfl rfl (given_same (exec_same h rfl) cb) (count_wrapcb cb c)
  | putBack v c => exact posted_putBack v c cb
  | drop v =>
    refine posted_of_same rfl rfl (given_same (exec_same h rfl) cb) ?_
    rw [paid_only]
    split <;> rfl
  | push v cbs => exact posted_push v cbs cb
  | stop v th hth =>
    exact posted_of_same rfl rfl (given_of_pushed (FoxThread.stop_same hth).pushed_eq (by simp)) rfl
  | read_cb v th next hr =>
    have hpushed : th.pushed = (s.m_threads v).pushed ++ [] := by rw [read_pushed hr, List.append_nil]
    refine posted_of_same rfl rfl (given_of_pushed hpushed rfl) ?_
    exact (paid_only _ _ _).trans (sum_read hv rfl rfl hr)
  | _ => exact posted_of_same rfl rfl (given_same (exec_same h rfl) cb) rfl

end Posted

def isLoop : Instr n Cb → Bool
  | .read_cb _ => true
  | _ => false

def Tailed (code : List (Instr n Cb)) : Prop := ∀ i ∈ code.dropLast, isLoop i = false

theorem code_not_loop (c : Call n Cb) : isLoop c.code = false := by cases c <;> rfl

theorem tailed_of_none {code : List (Instr n Cb)} (h : ∀ i ∈ code, isLoop i = false) : Tailed code :=
  fun i hi => h i (List.dropLast_subset code hi)

theorem Tailed.append {next rest : List (Instr n Cb)} (hnext : ∀ i ∈ next, isLoop i = false)
    (hrest : Tailed rest) : Tailed (next ++ rest) := by
  intro i hi
  by_cases hne : rest = []
  · subst hne
    rw [List.append_nil] at hi
    exact hnext i (List.dropLast_subset next hi)
  · rw [List.dropLast_append_of_ne_nil hne] at hi
    rcases List.mem_append.mp hi with hi | hi
    · exact hnext i hi
    · exact hrest i hi

theorem Tailed.tail {rest : List (Instr n Cb)} (h : Tailed (i :: rest)) : Tailed rest := by
  intro j hj
  cases rest with
  | nil => exact absurd hj List.not_mem_nil
  | cons x rest => exact h j (List.mem_cons_of_mem i hj)

theorem Tailed.eq_nil {rest : List (Instr n Cb)} (h : Tailed (i :: rest)) (hi : isLoop i = true) :
    rest = [] := by
  cases rest with
  | nil => rfl
  | cons x rest =>
    have hnot := h i List.mem_cons_self
    rw [hi] at hnot
    cases hnot

theorem read_tailed {u : Fin (n + 1)} {th th' : FoxThread Cb} {next : List (Instr n Cb)}
    (h : th.read_cb body u w = .ok (th', next)) : Tailed next := by
  have hone : Tailed [(.read_cb u : Instr n Cb)] := fun i hi => absurd hi List.not_mem_nil
  unfold FoxThread.read_cb at h
  split at h
  · split at h <;> cases h
    exact hone
  · cases h
    exact hone
  · split at h
    · cases h
      exact hone
    · next cb it hit =>
      cases h
      refine Tailed.append (fun i hi => ?_) hone
      cases cb with
      | plain cb =>
        obtain ⟨c, -, rfl⟩ := List.mem_map.mp hi
        exact code_not_loop c
      | wrapcb cb =>
        obtain ⟨c, -, rfl⟩ := List.mem_map.mp hi
        exact code_not_loop c
    · cases h
      exact hone
  · next broke hpc =>
    cases h
    refine Tailed.append (fun i hi => ?_) ?_
    · obtain ⟨cb, -, heq⟩ := List.mem_filterMap.mp hi
      split at heq <;> cases heq
      rfl
    · cases broke with
      | true => exact fun i hi => absurd hi List.not_mem_nil
      | false => exact hone
  · cases h

theorem exec_not_loop (h : exec body s k () i w = .ok t) (hi : isLoop i = false) :
    ∀ j ∈ t.next, isLoop j = false := by
  cases exec_effect h with
  | roundRobin cbs hm =>
    intro j hj
    obtain ⟨v, cbs, rfl⟩ := mem_roundRobin hj
    rfl
  | drop v =>
    intro j hj
    simp only [Turn.only] at hj
    split at hj
    · rw [List.mem_singleton.mp hj]
      rfl
    · exact absurd hj List.not_mem_nil
  | read_cb v th next hr => cases hi
  | _ => simp [Turn.only, isLoop]

theorem exec_tailed (h : exec body s k () i w = .ok t) {rest : List (Instr n Cb)} (hrest : Tailed (i :: rest)) :
    Tailed (t.next ++ rest) := by
  cases hi : isLoop i with
  | false => exact Tailed.append (exec_not_loop h hi) hrest.tail
  | true =>
    rw [hrest.eq_nil hi, List.append_nil]
    cases exec_effect h with
    | read_cb v th next hr => exact read_tailed hr
    | _ => cases hi

theorem exec_born_tailed (h : exec body s k () i w = .ok t) : ∀ u ∈ t.born, Tailed u.code := by
  have hone : ∀ v : Fin (n + 1), Tailed [(.read_cb v : Instr n Cb)] :=
    fun v i hi => absurd hi List.not_mem_nil
  intro u hu
  cases exec_booked h with
  | startFrom j t hm => exact List.mem_singleton.mp hu ▸ hone t
  | start t hm => exact List.mem_singleton.mp hu ▸ hone t
  | _ => exact absurd hu List.not_mem_nil

structure Inv (f : Calls n Cb) : Prop where
  ordered : ∀ u, Ordered (f.shared.m_threads u)
  owner : ∀ u, gone (f.shared.m_threads u) + Threads.total (owns u) f.threads = begun (f.shared.m_threads u)
  count : ∀ u, (f.shared.m_threads u).use_count =
    Threads.total (holds u) f.threads + queue (f.shared.m_threads u)
  place : ∀ u, f.shared.m_freeFoxThreads.count u + Threads.total (frees u) f.threads +
    inUse (f.shared.m_threads u) = ours (f.shared.m_threads u)
  single : ∀ u, Threads.total (binds u) f.threads + queue (f.shared.m_threads u) ≤ 1
  pooled : ∀ u, (f.shared.m_threads u).pooled = true → (f.shared.m_threads u).m_thread = true
  announced : ∀ u cb, some cb ∈ (f.shared.m_threads u).m_callbacks →
    (f.shared.m_threads u).announced (Threads.total (sends u) f.threads)
  launched : ∀ u, Threads.total (launches u) f.threads + running f.shared ≤ ours (f.shared.m_threads u)
  watched : Watched f.shared (Threads.total checks f.threads)
  tailed : ∀ j th, look f.threads j = some th → Tailed th.code

variable {f f' : Calls n Cb}

theorem Inv.init (m_advance : Bool) : Inv (init m_advance : Calls n Cb) where
  ordered _ := .init
  owner _ := rfl
  count _ := rfl
  place _ := rfl
  single _ := Nat.zero_le _
  pooled _ := nofun
  announced _ _ h := absurd h List.not_mem_nil
  launched _ := le_rfl
  watched := nofun
  tailed j th h := by cases h

theorem binds_le_holds (u : Fin (n + 1)) (r : Unit) (i : Instr n Cb) : binds u r i ≤ holds u r i := by
  cases i <;> simp [binds, holds]

theorem Inv.fair (h : Inv f) {rest : List (Instr n Cb)} (hk : look f.threads k = some ⟨(), i :: rest⟩) :
    Fair f.shared i := by
  refine ⟨h.ordered, fun u => ?_, fun u hu => ?_, h.pooled⟩
  · have hcount := h.count u
    have hle := Threads.le_total (holds u) hk
    omega
  · have hplace := h.place u
    have hpos := List.count_pos_iff.mpr hu
    have hours := ours_le (f.shared.m_threads u)
    unfold inUse at hplace
    split at hplace
    · omega
    · next hzero => exact Nat.eq_zero_of_not_pos hzero

/-- The threads are freed by the `start` of the pool, before it has set `m_start`. -/
theorem Inv.not_started (h : Inv f) {u : Fin (n + 1)} {rest : List (Instr n Cb)}
    (hk : look f.threads k = some ⟨(), .free u :: rest⟩) : f.shared.m_start = false := by
  have hlaunched := h.launched u
  have hlaunch := Threads.le_total (launches u) hk
  have hone : launches u () (.free u : Instr n Cb) = 1 := if_pos le_rfl
  have hours := ours_le (f.shared.m_threads u)
  unfold running at hlaunched
  by_contra hstart
  rw [if_pos (Bool.not_eq_false _ ▸ hstart)] at hlaunched
  omega

theorem Inv.turn (h : Inv f) {w : ℕ} (hs : turn body f k w = .ok f') : Inv f' := by
  obtain ⟨role, i, rest, t, ⟨hk, hexec⟩, rfl⟩ := Threads.run_ran hs
  obtain rfl : role = () := rfl
  have hres := exec_resumed hexec
  have hle := fun v : Unit → Instr n Cb → ℕ => Threads.le_total v hk
  have hafter : ∀ v : Unit → Instr n Cb → ℕ, Threads.total v (f.after id k () rest t).threads + v () i =
      Threads.total v f.threads + paid v t := fun v => by
    rw [Threads.total_after v hk hres, paid, Nat.add_assoc]
  -- what the others have still to do
  have hrest : ∀ v : Unit → Instr n Cb → ℕ, ∃ m, Threads.total v f.threads = v () i + m ∧
      Threads.total v (f.after id k () rest t).threads = paid v t + m := fun v => by
    obtain ⟨m, hm⟩ := Nat.exists_eq_add_of_le (hle v)
    have ha := hafter v
    exact ⟨m, hm, by omega⟩
  have hkeeps := fun u => (exec_booked hexec).keeps (h.fair hk) u
  have hshared : (f.after id k () rest t).shared = t.shared := rfl
  constructor
  · exact exec_ordered hexec h.ordered
  · intro u
    obtain ⟨m, hm, hm'⟩ := hrest (owns u)
    have howner := (hkeeps u).owner
    have hold := h.owner u
    rw [hshared]
    omega
  · intro u
    obtain ⟨m, hm, hm'⟩ := hrest (holds u)
    have hcount := (hkeeps u).count
    have hold := h.count u
    rw [hshared]
    omega
  · intro u
    obtain ⟨m, hm, hm'⟩ := hrest (frees u)
    have hplace := (hkeeps u).place
    have hold := h.place u
    rw [hshared]
    omega
  · intro u
    obtain ⟨m, hm, hm'⟩ := hrest (binds u)
    have hold := h.single u
    rw [hshared]
    rcases (hkeeps u).single with hless | ⟨hzero, hless⟩
    · omega
    · have hcount := h.count u
      obtain ⟨m', hm₁, -⟩ := hrest (holds u)
      have hbinds := Threads.total_add_le (binds_le_holds u) hk
      omega
  · exact fun u => (hkeeps u).pooled
  · intro u cb hcb
    obtain ⟨m, hm, hm'⟩ := hrest (sends u)
    rw [hm', hshared]
    exact exec_announced hexec u m cb (fun hold => hm ▸ h.announced u cb hold) hcb
  · intro u
    obtain ⟨m, hm, hm'⟩ := hrest (launches u)
    rw [hm', hshared]
    exact exec_launched hexec u m (h.pooled u) (hm ▸ h.launched u)
  · obtain ⟨m, hm, hm'⟩ := hrest checks
    rw [hm', hshared]
    refine exec_watched hexec m (fun u hi => ?_) (hm ▸ h.watched)
    subst hi
    exact h.not_started hk
  · refine Threads.forall_after hk (by simp [hres]) (exec_tailed hexec (h.tailed k _ hk))
      (fun u hu j _ => exec_born_tailed hexec u hu) (fun m u hm => ?_) fun j u _ _ hu => h.tailed j u hu
    rw [hres] at hm
    cases hm

theorem Inv.calls (h : Inv f) (cs : List (Call n Cb)) : Inv (f.start f.shared () (cs.map Call.code)) := by
  have htotal := fun v : Unit → Instr n Cb → ℕ => Threads.total_start v f f.shared () (cs.map Call.code)
  have hinner : ∀ v : Unit → Instr n Cb → ℕ, Inner v →
      Threads.total v (f.start f.shared () (cs.map Call.code)).threads = Threads.total v f.threads :=
    fun v hv => by rw [htotal, hv.code, Nat.add_zero]
  refine ⟨h.ordered, fun u => ?_, fun u => ?_, fun u => ?_, fun u => ?_, h.pooled, fun u cb hcb => ?_, fun u => ?_,
    fun h₁ h₂ h₃ => ?_, fun j th hj => ?_⟩
  · rw [hinner _ (inner_owns u)]
    exact h.owner u
  · rw [hinner _ (inner_holds u)]
    exact h.count u
  · rw [hinner _ (inner_frees u)]
    exact h.place u
  · rw [hinner _ (inner_binds u)]
    exact h.single u
  · rw [htotal]
    exact (h.announced u cb hcb).mono (Nat.le_add_right _ _)
  · rw [htotal, launches_code, Nat.add_zero]
    exact h.launched u
  · rw [htotal]
    exact Nat.lt_of_lt_of_le (h.watched h₁ h₂ h₃) (Nat.le_add_right _ _)
  · rcases Threads.look_start_cases hj with ⟨-, rfl⟩ | hold
    · refine tailed_of_none fun i hi => ?_
      obtain ⟨c, -, rfl⟩ := List.mem_map.mp hi
      exact code_not_loop c
    · exact h.tailed j th hold

theorem Inv.step (h : Inv f) {m : Move n Cb} (hs : step body f m = .ok f') : Inv f' := by
  cases m with
  | calls cs => exact Except.ok.inj hs ▸ h.calls cs
  | turn k w => exact h.turn hs

theorem along_inv (body : Cb → List (Call n Cb)) (m_advance : Bool) (moves : List (Move n Cb)) :
    Along (FoxThreadPool.step body) Inv (init m_advance) moves :=
  along_of_each Inv (fun _ _ => True) (fun _ _ _ h _ hs => h.step hs) moves _ (.init m_advance)
    (each_true moves _)

end FoxThreadPool

end Sylar
