import Sylar.Proofs.AsyncSocketStream

/-! The two permits of `m_waitSem`. `start` collects both, hands one to `doRead` and one to
`doWrite`, or gives them back, and so do `doRead` and `doWrite` when they end. A callback that
throws outside their loops takes the permits of its fiber with it. -/

namespace Sylar

open Lib FiberSemaphore

namespace AsyncSocketStream

variable {S : Type}

/-- What `start` holds: a permit after the first wait, both after the second, until each is
handed on or given back. -/
def startShare : Instr S → ℕ
  | .waitFiber true | .waitingFiber true | .startRead | .startWrite | .notifyWait => 1
  | .connect | .connectCb => 2
  | _ => 0

def readShare : Instr S → ℕ
  | .readLoop | .doRecv | .notifyWait => 1
  | _ => 0

def writeShare : Instr S → ℕ
  | .writeLoop | .waitSem | .waitingSem | .swapQueue | .doSend _ | .notifyWait => 1
  | _ => 0

/-- The permit that a step is to hand on or give back. -/
def share : Role S → Instr S → ℕ
  | .start _, i => startShare i
  | .doRead _, i => readShare i
  | .doWrite _, i => writeShare i
  | .request _, _ | .sendMessage, _ | .onTimeOut _, _ => 0

/-- The permit of `doRead`, and that of `doWrite`: with the fiber or on its way there. -/
def toEnd : Bool → Role S → Instr S → ℕ
  | true, .start _, .startRead => 1
  | true, .doRead _, i => readShare i
  | false, .start _, .startWrite => 1
  | false, .doWrite _, i => writeShare i
  | _, _, _ => 0

theorem toEnd_le (reads : Bool) (role : Role S) (i : Instr S) : toEnd reads role i ≤ share role i := by
  cases reads <;> cases role with
  | start this => cases i <;> simp [toEnd, share, startShare]
  | _ => simp [toEnd, share]

theorem toEnd_resume (reads : Bool) (role : Role S) (i : Instr S) :
    toEnd reads role (resume i) = toEnd reads role i := by
  cases i with
  | waitingFiber second => cases reads <;> cases role <;> cases second <;> rfl
  | waitingSem => cases reads <;> cases role <;> rfl
  | _ => rfl

variable {s : AsyncSocketStream S} {f : Fibers S} {k : ℕ} {role : Role S} {i : Instr S}
  {w : World} {t : FiberTurn S} {rest : List (Instr S)}

/-- A step that is not of `m_waitSem` hands on what it holds. -/
structure HandsOn (s : AsyncSocketStream S) (role : Role S) (i : Instr S) (t : FiberTurn S) :
    Prop where
  m_waitSem : t.shared.m_waitSem = s.m_waitSem
  share : (t.next.map (share role)).sum + Threads.total share t.born = share role i
  gaveBack : t.shared.gaveBack = s.gaveBack

theorem share_eq_zero {next : List (Instr S)} (h : ∀ j ∈ next, ofCtx j = true ∨ j = .clearQueue)
    (role : Role S) : (next.map (share role)).sum = 0 := by
  refine List.sum_eq_zero fun n hn => ?_
  obtain ⟨j, hj, rfl⟩ := List.mem_map.mp hn
  rcases h j hj with hctx | rfl
  · cases role <;> cases j <;> first | rfl | cases hctx
  · cases role <;> rfl

theorem exec_handsOn [DecidableEq S] (hi : inRole role i) (h : s.exec k role i w = .ok t)
    (hwait : ∀ second, i ≠ .waitFiber second) (hnotify : i ≠ .notifyWait) : HandsOn s role i t := by
  rcases exec_cases h with ⟨s', next, rfl, hctxs⟩ | hflow
  · refine ⟨hctxs.frame.m_waitSem, ?_, hctxs.frame.gaveBack⟩
    show (next.map (share role)).sum + 0 = share role i
    cases hctxs with
    | responded result hr =>
      cases role <;> cases hi
      unfold answer
      split <;> rfl
    | swapped hctxs =>
      have hzero : share role .swapCtxs = 0 := by cases role <;> rfl
      rw [hzero]
      refine share_eq_zero (fun j hj => ?_) role
      simp only [doRspCode, List.mem_append, List.mem_singleton, List.mem_flatMap] at hj
      rcases hj with rfl | ⟨d, -, rfl | rfl⟩
      · exact .inr rfl
      · exact .inl rfl
      · exact .inl rfl
    | rsp stage w hc =>
      have hzero : ∀ c stage, share role (.rsp c stage) = 0 := by
        intro c stage
        cases role <;> rfl
      rw [hzero, share_eq_zero]
      intro j hj
      obtain ⟨stage', -, rfl⟩ := List.mem_map.mp hj
      exact .inl rfl
    | writes w hw =>
      cases hw <;> cases role <;> cases hi
      all_goals rfl
    | _ =>
      cases role <;> cases hi
      all_goals rfl
  · cases hflow with
    | control hcontrol =>
      refine ⟨hcontrol.frame.2.2, ?_, ?_⟩
      · cases hcontrol with
        | sends ctxs how =>
          cases role <;> cases hi
          simp only [Turn.only, doSend]
          split <;> rfl
        | _ => cases role <;> cases hi <;> rfl
      · cases hcontrol <;> rfl
    | pushed m =>
      refine ⟨rfl, ?_, rfl⟩
      simp only [Turn.only]
      cases role <;> cases hi <;> split <;> rfl
    | notified heq hn =>
      refine ⟨rfl, ?_, rfl⟩
      rcases heq with rfl | rfl <;> cases role <;> cases hi <;> rfl
    | waited hw =>
      refine ⟨rfl, ?_, rfl⟩
      cases role <;> cases hi
      cases hw <;> rfl
    | collected second hw => exact absurd rfl (hwait second)
    | gave hn => exact absurd rfl hnotify
    | _ =>
      refine ⟨rfl, ?_, rfl⟩
      cases role <;> cases hi <;> rfl

theorem sum_le_sum {v u : Instr S → ℕ} (h : ∀ j, v j ≤ u j) (next : List (Instr S)) :
    (next.map v).sum ≤ (next.map u).sum :=
  List.sum_le_sum fun j _ => h j

/-- A fiber that is not of `start` holds one permit for one end, or none for it. -/
theorem toEnd_role (reads : Bool) (hrole : ∀ this, role ≠ .start this) :
    toEnd reads role = share role ∨ toEnd reads role = fun _ => 0 := by
  cases role with
  | start this => exact absurd rfl (hrole this)
  | doRead this =>
    cases reads with
    | true => exact .inl rfl
    | false => exact .inr rfl
  | doWrite this =>
    cases reads with
    | true => exact .inr rfl
    | false => exact .inl rfl
  | _ => cases reads <;> exact .inr rfl

def sendsOn : Instr S → ℕ
  | .connectCb => 1
  | _ => 0

theorem exec_toEnd [DecidableEq S] (hi : inRole role i) (h : s.exec k role i w = .ok t)
    (reads : Bool) :
    (t.next.map (toEnd reads role)).sum + Threads.total (toEnd reads) t.born ≤
      toEnd reads role i + sendsOn i := by
  rcases exec_cases h with ⟨s', next, rfl, hctxs⟩ | hflow
  · show (next.map (toEnd reads role)).sum + 0 ≤ _
    have hshare := (exec_handsOn hi h (by rintro second rfl; cases hctxs with | writes w hw => cases hw)
      (by rintro rfl; cases hctxs with | writes w hw => cases hw)).share
    change (next.map (share role)).sum + 0 = share role i at hshare
    by_cases hrole : ∃ this, role = .start this
    · obtain ⟨this, rfl⟩ := hrole
      have hle := sum_le_sum (toEnd_le reads (.start this)) next
      have hzero : share (.start this) i = 0 := by
        cases hctxs with
        | writes w hw => cases hw <;> rfl
        | responded result hr => cases hi
        | _ => rfl
      omega
    · push Not at hrole
      rcases toEnd_role reads hrole with heq | heq
      · rw [heq]
        omega
      · rw [heq]
        simp
  · cases hflow with
    | control hcontrol =>
      cases hcontrol with
      | sends ctxs how =>
        cases role <;> cases hi
        simp only [Turn.only, doSend]
        cases reads <;> split <;> exact Nat.le_of_ble_eq_true rfl
      | _ => cases reads <;> cases role <;> cases hi <;> exact Nat.le_of_ble_eq_true rfl
    | pushed m =>
      simp only [Turn.only]
      cases reads <;> cases role <;> cases hi <;> split <;> exact Nat.le_of_ble_eq_true rfl
    | notified heq hn => exact Nat.zero_le _
    | cleared => exact Nat.zero_le _
    | gave hn => exact Nat.zero_le _
    | swapped => cases reads <;> cases role <;> cases hi <;> exact Nat.le_add_right _ _
    | waited hw =>
      cases role <;> cases hi
      cases reads <;> cases hw <;> exact Nat.le_add_right _ _
    | collected second hw =>
      cases role <;> cases hi
      cases reads <;> cases second <;> cases hw <;> exact Nat.le_add_right _ _
    | startRead | startWrite =>
      cases role <;> cases hi
      cases reads <;> exact Nat.le_add_right _ _

def Ends (v : Instr S → ℕ) : List (Instr S) → Prop
  | [] => True
  | i :: rest => (v i = if rest.isEmpty then 1 else 0) ∧ Ends v rest

theorem sum_ends {v : Instr S → ℕ} {code : List (Instr S)} (h : Ends v code) :
    (code.map v).sum = if code.isEmpty then 0 else 1 := by
  induction code with
  | nil => rfl
  | cons i rest ih =>
    rw [List.map_cons, List.sum_cons, h.1, ih h.2]
    cases rest <;> rfl

theorem ends_append {v : Instr S → ℕ} {next rest : List (Instr S)} (hnext : (next.map v).sum = 0)
    (hrest : Ends v rest) (hne : rest ≠ []) : Ends v (next ++ rest) := by
  induction next with
  | nil => exact hrest
  | cons i next ih =>
    rw [List.map_cons, List.sum_cons] at hnext
    have hempty : (next ++ rest).isEmpty = false := by
      simp [hne]
    refine ⟨?_, ih (by omega)⟩
    show v i = if (next ++ rest).isEmpty then 1 else 0
    rw [hempty]
    show v i = 0
    omega

def Reads (role : Role S) : Prop := ∃ this, role = .doRead this ∨ role = .doWrite this

theorem exec_ends [DecidableEq S] (hrole : Reads role) (hi : inRole role i)
    (h : s.exec k role i w = .ok t) (hshare : share role i = 1) (hnotify : i ≠ .notifyWait) :
    Ends (share role) t.next := by
  obtain ⟨this, rfl | rfl⟩ := hrole
  · rcases exec_cases h with ⟨s', next, rfl, hctxs⟩ | hflow
    · cases hctxs with
      | responded result hr =>
        show Ends _ (answer _ _ _)
        unfold answer
        split <;> simp [Ends, doRspCode, share, readShare]
      | writes w hw => cases hw <;> cases hshare
      | _ => cases hshare
    · cases hflow with
      | control hcontrol =>
        cases hcontrol with
        | sends ctxs how => cases hi
        | _ => cases hshare <;> simp [Turn.only, Ends, readEnds, innerCloseCode, share, readShare]
      | notified heq hn => rcases heq with rfl | rfl <;> cases hshare
      | gave hn => exact absurd rfl hnotify
      | _ => cases hshare
  · rcases exec_cases h with ⟨s', next, rfl, hctxs⟩ | hflow
    · cases hctxs with
      | writes w hw => cases hw <;> cases hshare
      | _ => cases hshare
    · cases hflow with
      | control hcontrol =>
        cases hcontrol with
        | sends ctxs how =>
          show Ends _ (doSend _ _)
          unfold doSend
          split <;> simp [Ends, writeEnds, innerCloseCode, share, writeShare]
        | _ => cases hshare <;> simp [Turn.only, Ends, writeEnds, share, writeShare]
      | notified heq hn => rcases heq with rfl | rfl <;> cases hshare
      | waited hw => cases hw <;> simp [Turn.only, Ends, share, writeShare]
      | swapped => simp [Turn.only, Ends, share, writeShare]
      | gave hn => exact absurd rfl hnotify
      | _ => cases hshare

/-- What `start` still has to do before it has failed. -/
inductive Starts : List (Instr S) → Prop
  | waitFiber (second : Bool) : Starts [.waitFiber second]
  | waitingFiber (second : Bool) : Starts [.waitingFiber second]
  | connect : Starts [.connect]
  | connectCb : Starts [.connectCb]
  | startRead : Starts [.startRead, .startWrite]
  | startWrite : Starts [.startWrite]
  | started : Starts []

def givesBack : Instr S → Bool
  | .notifyWait => true
  | _ => false

/-- A `start` that has failed gives back two permits in all, and no other gives back any. -/
def Refuses (s : AsyncSocketStream S) (k : ℕ) (code : List (Instr S)) : Prop :=
  k ∉ s.refused ∧ k ∉ s.gaveBack ∧ Starts code ∨
    k ∈ s.refused ∧ (∀ i ∈ code, closes i) ∧
      s.gaveBack.count k + code.countP givesBack = 2

theorem exec_record [DecidableEq S] (h : s.exec k role i w = .ok t) :
    t.shared.gaveBack = s.gaveBack ++ (if givesBack i then [k] else []) ∧
    (t.shared.refused = s.refused ∨ (i = .connect ∨ i = .connectCb) ∧ t.next = startFails ∧
      t.shared.refused = s.refused ++ [k]) := by
  have hnil : ∀ l : List ℕ, l = l ++ [] := fun l => (List.append_nil l).symm
  rcases exec_cases h with ⟨s', next, rfl, hctxs⟩ | hflow
  · refine ⟨?_, .inl hctxs.frame.refused⟩
    show s'.gaveBack = _
    rw [hctxs.frame.gaveBack]
    cases hctxs with
    | writes w hw => cases hw <;> exact hnil _
    | _ => exact hnil _
  · cases hflow with
    | control hcontrol =>
      cases hcontrol with
      | unconnected => exact ⟨hnil _, .inr ⟨.inl rfl, rfl, rfl⟩⟩
      | refused => exact ⟨hnil _, .inr ⟨.inr rfl, rfl, rfl⟩⟩
      | _ => exact ⟨hnil _, .inl rfl⟩
    | notified heq hn => rcases heq with rfl | rfl <;> exact ⟨hnil _, .inl rfl⟩
    | gave hn => exact ⟨rfl, .inl rfl⟩
    | _ => exact ⟨hnil _, .inl rfl⟩

theorem exec_closes [DecidableEq S] (hi : closes i) (h : s.exec k role i w = .ok t) :
    ∀ j ∈ t.next, closes j ∧ j ≠ .notifyWait := by
  rcases exec_cases h with ⟨s', next, rfl, hctxs⟩ | hflow
  · show ∀ j ∈ next, _
    cases hctxs with
    | rsp stage w hc =>
      intro j hj
      obtain ⟨stage', -, rfl⟩ := List.mem_map.mp hj
      exact ⟨rfl, by simp⟩
    | swapped hctxs =>
      intro j hj
      simp only [doRspCode, List.mem_append, List.mem_singleton, List.mem_flatMap] at hj
      rcases hj with rfl | ⟨d, -, rfl | rfl⟩ <;> exact ⟨rfl, by simp⟩
    | responded result hr => cases hi
    | _ => simp
  · cases hflow with
    | control hcontrol =>
      cases hcontrol with
      | close => simp [Turn.only]
      | _ => cases hi
    | notified heq hn => simp
    | cleared => simp [Turn.only]
    | gave hn => simp
    | _ => cases hi

theorem countP_eq_zero {next : List (Instr S)} (h : ∀ j ∈ next, closes j ∧ j ≠ .notifyWait) :
    next.countP givesBack = 0 := by
  refine List.countP_eq_zero.mpr fun j hj => ?_
  have hne := (h j hj).2
  cases j <;> simp [givesBack] at hne ⊢

theorem starts_exec [DecidableEq S] (h : s.exec k role i w = .ok t) (hs : Starts (i :: rest)) :
    t.shared.gaveBack = s.gaveBack ∧
      (t.shared.refused = s.refused ∧ Starts (t.next ++ rest) ∨
        t.shared.refused = s.refused ++ [k] ∧ t.next ++ rest = startFails) := by
  rcases exec_cases h with ⟨s', next, rfl, hctxs⟩ | hflow
  · cases hs <;> cases hctxs with
    | writes w hw => cases hw
  · cases hflow with
    | control hcontrol =>
      cases hcontrol with
      | connected | reconnected =>
        cases hs
        exact ⟨rfl, .inl ⟨rfl, .connectCb⟩⟩
      | accepted =>
        cases hs
        exact ⟨rfl, .inl ⟨rfl, .startRead⟩⟩
      | unconnected | refused =>
        cases hs
        exact ⟨rfl, .inr ⟨rfl, rfl⟩⟩
      | _ => cases hs
    | notified heq hn => rcases heq with rfl | rfl <;> cases hs
    | collected second hw =>
      cases hs
      refine ⟨rfl, .inl ⟨rfl, ?_⟩⟩
      cases hw with
      | granted hpos =>
        cases second with
        | false => exact .waitFiber true
        | true => exact .connect
      | suspended scheduler hthis hzero => exact .waitingFiber second
    | startRead =>
      cases hs
      exact ⟨rfl, .inl ⟨rfl, .startWrite⟩⟩
    | startWrite =>
      cases hs
      exact ⟨rfl, .inl ⟨rfl, .started⟩⟩
    | _ => cases hs

theorem refuses_exec [DecidableEq S] (h : s.exec k role i w = .ok t)
    (hr : Refuses s k (i :: rest)) : Refuses t.shared k (t.next ++ rest) := by
  rcases hr with ⟨hnot, hnone, hstarts⟩ | ⟨hmem, hcloses, hcount⟩
  · obtain ⟨hgave, ⟨hrefused, hstarts⟩ | ⟨hrefused, hfails⟩⟩ := starts_exec h hstarts
    · exact .inl ⟨hrefused ▸ hnot, hgave ▸ hnone, hstarts⟩
    · right
      rw [hrefused, hfails, hgave, List.count_eq_zero_of_not_mem hnone]
      exact ⟨by simp, by simp [startFails, innerCloseCode, closes], rfl⟩
  · obtain ⟨hgave, hrefused⟩ := exec_record h
    have hi := hcloses i List.mem_cons_self
    have hnext := exec_closes hi h
    have hsame : t.shared.refused = s.refused := by
      rcases hrefused with heq | ⟨rfl | rfl, -⟩
      · exact heq
      · cases hi
      · cases hi
    right
    refine ⟨hsame ▸ hmem, fun j hj => ?_, ?_⟩
    · rcases List.mem_append.mp hj with hj | hj
      · exact (hnext j hj).1
      · exact hcloses j (List.mem_cons_of_mem i hj)
    · rw [List.countP_append, countP_eq_zero hnext]
      rw [List.countP_cons] at hcount
      rw [hgave, List.count_append]
      split at hcount
      · next hnotify =>
        rw [if_pos hnotify, List.count_singleton_self]
        omega
      · next hnotify =>
        rw [if_neg hnotify, List.count_nil]
        omega

theorem refuses_other [DecidableEq S] {j : ℕ} {code : List (Instr S)}
    (h : s.exec k role i w = .ok t) (hj : j ≠ k) (hr : Refuses s j code) :
    Refuses t.shared j code := by
  obtain ⟨hgave, hrefused⟩ := exec_record h
  have hcount : t.shared.gaveBack.count j = s.gaveBack.count j := by
    rw [hgave, List.count_append]
    split
    · rw [List.count_singleton, if_neg (by simpa using Ne.symm hj), Nat.add_zero]
    · rfl
  have hmem : j ∈ t.shared.refused ↔ j ∈ s.refused := by
    rcases hrefused with heq | ⟨-, -, heq⟩
    · rw [heq]
    · simp [heq, hj]
  have hgaveBack : j ∈ t.shared.gaveBack ↔ j ∈ s.gaveBack := by
    rw [← List.count_pos_iff, hcount, List.count_pos_iff]
  unfold Refuses
  rw [hmem, hcount, hgaveBack]
  exact hr

theorem exec_waitFiber [DecidableEq S] {second : Bool}
    (h : s.exec k role (.waitFiber second) w = .ok t) :
    ∃ r, Waited s.m_waitSem role.this k r ∧ t = .only { s with m_waitSem := r.1 }
      [if r.2 then .waitingFiber second else resume (.waitingFiber second)] := by
  cases w with
  | quiet =>
    change wait s.m_waitSem (fun sem => { s with m_waitSem := sem }) k role.this
      (resume (.waitingFiber second)) (.waitingFiber second) = .ok t at h
    exact wait_turn h
  | _ => cases h

theorem exec_notifyWait [DecidableEq S] (h : s.exec k role .notifyWait w = .ok t) :
    ∃ r, Notified s.m_waitSem r ∧
      t = ⟨{ s with m_waitSem := r.1, gaveBack := s.gaveBack ++ [k] }, [], [],
        r.2.map Prod.snd⟩ := by
  cases w with
  | quiet => exact ⟨_, notify_notified _, (Except.ok.inj h).symm⟩
  | _ => cases h

def Conserved (f : Fibers S) : Prop :=
  f.shared.m_waitSem.m_concurrency + Threads.total share f.threads = 2

theorem share_resume_waitingSem (role : Role S) :
    share role (resume .waitingSem) = share role .waitingSem := by
  cases role <;> rfl

theorem conserved_of_none (h : Conserved f) (hk : look f.threads k = some ⟨role, i :: rest⟩)
    (hres : t.resumed = none)
    (hsum : t.shared.m_waitSem.m_concurrency + (t.next.map (share role)).sum +
      Threads.total share t.born = f.shared.m_waitSem.m_concurrency + share role i) :
    Conserved (f.after resume k role rest t) := by
  have htotal : Threads.total share (f.after resume k role rest t).threads + _ = _ :=
    Threads.total_after share hk hres
  unfold Conserved at h ⊢
  show t.shared.m_waitSem.m_concurrency + _ = 2
  omega

theorem conserved_of_some {n : ℕ} {r : Role S} {j : Instr S} {c : List (Instr S)}
    (h : Conserved f) (hk : look f.threads k = some ⟨role, i :: rest⟩) (hres : t.resumed = some n)
    (hn : n ≠ k) (hu : look f.threads n = some ⟨r, j :: c⟩)
    (hsum : t.shared.m_waitSem.m_concurrency + (t.next.map (share role)).sum +
      Threads.total share t.born + share r (resume j) =
        f.shared.m_waitSem.m_concurrency + share role i + share r j) :
    Conserved (f.after resume k role rest t) := by
  have htotal : Threads.total share (f.after resume k role rest t).threads + _ + _ = _ :=
    Threads.total_after_resumed share hk hres hn hu
  unfold Conserved at h ⊢
  show t.shared.m_waitSem.m_concurrency + _ = 2
  omega

theorem conserved_turn [DecidableEq S] (h : Conserved f) (hwaiters : Waiters f) (hroles : Roles f)
    (hran : Threads.Ran exec f k w role i rest t) : Conserved (f.after resume k role rest t) := by
  have hk := hran.look_eq
  have hi : inRole role i := hroles k _ hk i List.mem_cons_self
  have hself := hwaiters.resumed_ne hran
  by_cases hwait : ∃ second, i = .waitFiber second
  · -- the fiber gets a permit, or it waits for one
    obtain ⟨second, rfl⟩ := hwait
    obtain ⟨r, hr, rfl⟩ := exec_waitFiber hran.exec_eq
    apply conserved_of_none h hk rfl
    cases role <;> cases hi
    cases hr with
    | granted hpos =>
      cases second <;> simp [Turn.only, resume, share, startShare, Threads.total] <;> omega
    | suspended scheduler hthis hzero =>
      cases second <;> simp [Turn.only, share, startShare, Threads.total]
  · by_cases hnotify : i = .notifyWait
    · -- a permit goes to a fiber that waits, or to the counter
      subst hnotify
      obtain ⟨r, hr, rfl⟩ := exec_notifyWait hran.exec_eq
      have hone : share role .notifyWait = 1 := by cases role <;> first | rfl | cases hi
      cases hr with
      | handed next rest' hwaiting =>
        have hne : next.2 ≠ k := fun heq => hself (congrArg some heq)
        obtain ⟨r, j, c, hlook, hj⟩ := hwaiters.resumed hran rfl
        rcases hj with ⟨-, hj⟩ | ⟨⟨second, rfl⟩, -⟩
        · exact absurd rfl hj
        · apply conserved_of_some h hk rfl hne hlook
          have hr := hroles _ _ hlook _ List.mem_cons_self
          rw [hone]
          cases r <;> cases hr
          cases second <;> simp [resume, share, startShare, Threads.total]
      | counted hwaiting =>
        apply conserved_of_none h hk rfl
        have hle : f.shared.m_waitSem.m_concurrency + 1 < 2 ^ 64 := by
          unfold Conserved at h
          omega
        have hincr : incr f.shared.m_waitSem.m_concurrency = _ := Nat.mod_eq_of_lt hle
        show incr f.shared.m_waitSem.m_concurrency + 0 + 0 = _
        rw [hone, hincr]
    · push Not at hwait
      have hon := exec_handsOn hi hran.exec_eq hwait hnotify
      have hsum := hon.share
      cases hres : t.resumed with
      | none =>
        apply conserved_of_none h hk hres
        rw [hon.m_waitSem]
        omega
      | some n =>
        obtain ⟨r, j, c, hlook, hj⟩ := hwaiters.resumed hran hres
        have hne : n ≠ k := fun heq => hself (heq ▸ hres)
        rcases hj with ⟨rfl, -⟩ | ⟨-, hj⟩
        · apply conserved_of_some h hk hres hne hlook
          rw [share_resume_waitingSem, hon.m_waitSem]
          omega
        · exact absurd hj hnotify

theorem toEnd_turn [DecidableEq S] {reads : Bool} (h : Threads.total (toEnd reads) f.threads ≤ 1)
    (hf : Conserved f) (hroles : Roles f) (hran : Threads.Ran exec f k w role i rest t) :
    Threads.total (toEnd reads) (f.after resume k role rest t).threads ≤ 1 := by
  have hk := hran.look_eq
  have hexec := exec_toEnd (hroles k _ hk i List.mem_cons_self) hran.exec_eq reads
  have htotal : Threads.total (toEnd reads) (f.after resume k role rest t).threads + _ = _ :=
    Threads.total_after_turn (toEnd_resume reads) hk
  by_cases hconnectCb : i = .connectCb
  · -- the others hold no permit
    subst hconnectCb
    have hle := Threads.total_add_le (toEnd_le reads) hk
    have hrole : inRole role .connectCb := hroles k _ hk _ List.mem_cons_self
    have htwo : share role .connectCb = 2 := by cases role <;> first | rfl | cases hrole
    have hzero : toEnd reads role .connectCb = 0 := by cases reads <;> cases role <;> rfl
    unfold Conserved at hf
    simp only [sendsOn] at hexec
    omega
  · have hsends : sendsOn i = 0 := by
      cases i <;> first | rfl | exact absurd rfl hconnectCb
    simp only [hsends] at hexec
    omega

theorem ends_turn [DecidableEq S] (hf : Waiters f) (hroles : Roles f)
    (h : ∀ j u, look f.threads j = some u → Reads u.role → Ends (share u.role) u.code)
    (hran : Threads.Ran exec f k w role i rest t) :
    ∀ j u, look (f.after resume k role rest t).threads j = some u → Reads u.role →
      Ends (share u.role) u.code := by
  have hk := hran.look_eq
  have hi : inRole role i := hroles k _ hk i List.mem_cons_self
  apply Threads.forall_after (P := fun _ u => Reads u.role → Ends (share u.role) u.code) hk
    (hf.resumed_ne hran)
  · intro hrole
    obtain ⟨hhead, hrest⟩ := h k _ hk hrole
    have hwait : ∀ second, i ≠ .waitFiber second := by
      rintro second rfl
      obtain ⟨this, hthis | hthis⟩ := hrole
      · cases hthis
        cases hi
      · cases hthis
        cases hi
    by_cases hnotify : i = .notifyWait
    · subst hnotify
      obtain ⟨r, -, rfl⟩ := exec_notifyWait hran.exec_eq
      exact hrest
    · by_cases hempty : rest = []
      · subst hempty
        show Ends (share role) (t.next ++ [])
        rw [List.append_nil]
        exact exec_ends hrole hi hran.exec_eq hhead hnotify
      · have hsum := (exec_handsOn hi hran.exec_eq hwait hnotify).share
        have hfalse : rest.isEmpty = false := by simpa using hempty
        rw [hfalse] at hhead
        change share role i = 0 at hhead
        have hzero : (t.next.map (share role)).sum = 0 := by omega
        exact ends_append hzero hrest hempty
  · intro u hu j hj
    rcases exec_cases hran.exec_eq with ⟨s', next, rfl, -⟩ | hflow
    · cases hu
    · cases hflow with
      | startRead | startWrite =>
        cases List.mem_singleton.mp hu
        exact fun _ => ⟨rfl, trivial⟩
      | _ => cases hu
  · intro n u hn _ hu hrole
    obtain ⟨r, j, c, hlook, hj⟩ := hf.resumed hran hn
    cases hu.symm.trans hlook
    rcases hj with ⟨rfl, -⟩ | ⟨⟨second, rfl⟩, -⟩
    · obtain ⟨hhead, hrest⟩ := h n _ hu hrole
      exact ⟨(share_resume_waitingSem r).trans hhead, hrest⟩
    · have hr := hroles n _ hu _ List.mem_cons_self
      obtain ⟨this, hthis | hthis⟩ := hrole
      · cases hthis
        cases hr
      · cases hthis
        cases hr
  · exact fun j u _ _ hu => h j u hu

theorem refuses_turn [DecidableEq S] (hf : Waiters f)
    (h : ∀ j u, look f.threads j = some u → (∃ this, u.role = .start this) →
      Refuses f.shared j u.code) (hran : Threads.Ran exec f k w role i rest t) :
    ∀ j u, look (f.after resume k role rest t).threads j = some u → (∃ this, u.role = .start this) →
      Refuses t.shared j u.code := by
  have hk := hran.look_eq
  apply Threads.forall_after
    (P := fun j u => (∃ this, u.role = .start this) → Refuses t.shared j u.code) hk
    (hf.resumed_ne hran)
  · exact fun hrole => refuses_exec hran.exec_eq (h k _ hk hrole)
  · intro u hu j hj
    rcases exec_cases hran.exec_eq with ⟨s', next, rfl, -⟩ | hflow
    · cases hu
    · cases hflow with
      | startRead | startWrite =>
        cases List.mem_singleton.mp hu
        exact fun ⟨_, hthis⟩ => by cases hthis
      | _ => cases hu
  · intro n u hn hne hu hrole
    apply refuses_other hran.exec_eq hne
    obtain ⟨r, j, c, hlook, hj⟩ := hf.resumed hran hn
    cases hu.symm.trans hlook
    rcases h n _ hu hrole with ⟨hnot, hnone, hstarts⟩ | ⟨-, hcloses, -⟩
    · left
      refine ⟨hnot, hnone, ?_⟩
      cases hstarts with
      | waitingFiber second =>
        cases second with
        | false => exact .waitFiber true
        | true => exact .connect
      | _ => rcases hj with ⟨hj, -⟩ | ⟨⟨second, hj⟩, -⟩ <;> cases hj
    · have hclose := hcloses j List.mem_cons_self
      rcases hj with ⟨rfl, -⟩ | ⟨⟨second, rfl⟩, -⟩ <;> cases hclose
  · exact fun j u _ hj hu hrole => refuses_other hran.exec_eq hj (h j u hu hrole)

/-- An exception of a callback is caught, in the loop of `doRead` or of `doWrite`. -/
def Caught (f : Fibers S) : Move S → Prop
  | .threw k => .readLoop ∈ f.code k ∨ .writeLoop ∈ f.code k
  | _ => True

theorem caught_threw {old : List (Instr S)} (hk : look f.threads k = some ⟨role, old⟩) :
    Caught f (.threw k) ↔ .readLoop ∈ old ∨ .writeLoop ∈ old := by
  show .readLoop ∈ f.code k ∨ .writeLoop ∈ f.code k ↔ _
  rw [Threads.code_of_look hk]

/-- A fiber whose exception is caught still has its permit. -/
structure Unwound (role : Role S) (old new : List (Instr S)) : Prop where
  ends : Ends (share role) new
  share : (old.map (share role)).sum = (new.map (share role)).sum
  toEnd : ∀ reads, (old.map (toEnd reads role)).sum = (new.map (toEnd reads role)).sum
  role : ∀ this, role ≠ .start this

theorem unwound_of_caught {old new : List (Instr S)} (h : Thrown old new)
    (hrole : ∀ j ∈ old, inRole role j) (hcaught : .readLoop ∈ old ∨ .writeLoop ∈ old) :
    Unwound role old new := by
  cases h with
  | readLoop =>
    have hread : inRole role .readLoop := hrole _ (by simp)
    cases role <;> cases hread
    refine ⟨?_, rfl, fun reads => ?_, by simp⟩
    · simp [Ends, readEnds, innerCloseCode, share, readShare]
    · cases reads <;> rfl
  | writeLoop =>
    have hwrite : inRole role .writeLoop := hrole _ (by simp)
    cases role <;> cases hwrite
    refine ⟨?_, rfl, fun reads => ?_, by simp⟩
    · simp [Ends, writeEnds, share, writeShare]
    · cases reads <;> rfl
  | _ => simp [startFails, readEnds, innerCloseCode] at hcaught

structure Permits (f : Fibers S) : Prop where
  waiters : Waiters f
  roles : Roles f
  conserved : Conserved f
  toEnd : ∀ reads, Threads.total (toEnd reads) f.threads ≤ 1
  ends : ∀ k u, look f.threads k = some u → Reads u.role → Ends (share u.role) u.code
  refuses : ∀ k u, look f.threads k = some u → (∃ this, u.role = .start this) →
    Refuses f.shared k u.code
  known : ∀ k, k ∈ f.shared.refused ∨ k ∈ f.shared.gaveBack →
    ∃ u, look f.threads k = some u ∧ (k ∈ f.shared.refused → ∃ this, u.role = .start this)

namespace Permits

theorem init (connected : Bool) (iomanager : Option S) :
    Permits (AsyncSocketStream.init connected iomanager) where
  waiters := .init connected iomanager
  roles := .init connected iomanager
  conserved := rfl
  toEnd := fun _ => Nat.zero_le 1
  ends := fun k u hu => by simp [AsyncSocketStream.init, look] at hu
  refuses := fun k u hu => by simp [AsyncSocketStream.init, look] at hu
  known := fun k hk => by simp [AsyncSocketStream.init] at hk

theorem start (h : Permits f) {shared : AsyncSocketStream S} {code : List (Instr S)}
    (hsem : shared.m_sem = f.shared.m_sem) (hwaitSem : shared.m_waitSem = f.shared.m_waitSem)
    (hrefused : shared.refused = f.shared.refused) (hgaveBack : shared.gaveBack = f.shared.gaveBack)
    (hcode : ∀ i ∈ code, inRole role i) (hshare : (code.map (share role)).sum = 0)
    (hrole : ¬ Reads role) (hstart : (∃ this, role = .start this) → Starts code) :
    Permits (f.start shared role code) := by
  have hsame : ∀ j code, Refuses f.shared j code → Refuses shared j code := by
    intro j code hr
    unfold Refuses at hr ⊢
    rw [hrefused, hgaveBack]
    exact hr
  refine
    { waiters := h.waiters.start role code hsem hwaitSem
      roles := h.roles.start shared hcode
      conserved := ?_
      toEnd := ?_
      ends := ?_
      refuses := ?_
      known := ?_ }
  · have hf := h.conserved
    unfold Conserved at hf ⊢
    rw [Threads.total_start, hshare]
    show shared.m_waitSem.m_concurrency + _ = 2
    rw [hwaitSem]
    exact hf
  · intro reads
    have hle := sum_le_sum (toEnd_le reads role) code
    rw [Threads.total_start]
    have hf := h.toEnd reads
    omega
  · intro j u hu hu'
    rcases Threads.look_start_cases hu with ⟨-, rfl⟩ | hu
    · exact absurd hu' hrole
    · exact h.ends j u hu hu'
  · intro j u hu hu'
    apply hsame
    rcases Threads.look_start_cases hu with ⟨rfl, rfl⟩ | hu
    · have hnew : ∀ u, look f.threads f.threads.length ≠ some u := fun u hu =>
        absurd (lt_length_of_look hu) (Nat.lt_irrefl _)
      refine .inl ⟨fun hmem => ?_, fun hmem => ?_, hstart hu'⟩
      · obtain ⟨u, hu, -⟩ := h.known _ (.inl hmem)
        exact hnew u hu
      · obtain ⟨u, hu, -⟩ := h.known _ (.inr hmem)
        exact hnew u hu
    · exact h.refuses j u hu hu'
  · intro j hj
    change j ∈ shared.refused ∨ j ∈ shared.gaveBack at hj
    rw [hrefused, hgaveBack] at hj
    obtain ⟨u, hu, hu'⟩ := h.known j hj
    exact ⟨u, Threads.look_start_old shared role code hu, fun hmem => hu' (hrefused ▸ hmem)⟩

theorem known_turn [DecidableEq S] (h : Permits f) (hran : Threads.Ran exec f k w role i rest t)
    (j : ℕ) (hj : j ∈ t.shared.refused ∨ j ∈ t.shared.gaveBack) :
    ∃ u, look (f.after resume k role rest t).threads j = some u ∧
      (j ∈ t.shared.refused → ∃ this, u.role = .start this) := by
  have hk := hran.look_eq
  obtain ⟨hgave, hrefused⟩ := exec_record hran.exec_eq
  have hback : ∀ n, n ∈ t.shared.gaveBack → n ∈ f.shared.gaveBack ∨ n = k := by
    intro n hn
    rw [hgave] at hn
    split at hn
    · simpa using hn
    · exact .inl (by simpa using hn)
  have hrole : ∀ n u, look f.threads n = some u → n ∈ t.shared.refused →
      ∃ this, u.role = .start this := by
    intro n u hu hn
    rcases hrefused with heq | ⟨hi, -, heq⟩
    · obtain ⟨v, hv, hthis⟩ := h.known n (.inl (heq ▸ hn))
      cases hu.symm.trans hv
      exact hthis (heq ▸ hn)
    · rw [heq, List.mem_append, List.mem_singleton] at hn
      rcases hn with hn | rfl
      · obtain ⟨v, hv, hthis⟩ := h.known n (.inl hn)
        cases hu.symm.trans hv
        exact hthis hn
      · cases hk.symm.trans hu
        have hr := h.roles n _ hk i List.mem_cons_self
        rcases hi with rfl | rfl <;> cases role <;> cases hr <;> exact ⟨_, rfl⟩
  have hold : ∃ u, look f.threads j = some u := by
    by_cases hjk : j = k
    · exact ⟨_, hjk ▸ hk⟩
    · have hmem : j ∈ f.shared.refused ∨ j ∈ f.shared.gaveBack := by
        rcases hj with hj | hj
        · rcases hrefused with heq | ⟨-, -, heq⟩
          · exact .inl (heq ▸ hj)
          · rw [heq] at hj
            exact .inl (by simpa [hjk] using hj)
        · exact .inr ((hback j hj).resolve_right hjk)
      obtain ⟨u, hu, -⟩ := h.known j hmem
      exact ⟨u, hu⟩
  obtain ⟨u, hu⟩ := hold
  obtain ⟨u', hu', hsame⟩ := Threads.exists_look_after hk (h.waiters.resumed_ne hran) hu
  exact ⟨u', hu', fun hmem => hsame ▸ hrole j u hu hmem⟩

theorem turn [DecidableEq S] (h : Permits f) (hran : Threads.Ran exec f k w role i rest t) :
    Permits (f.after resume k role rest t) where
  waiters := h.waiters.turn hran
  roles := h.roles.turn h.waiters hran
  conserved := conserved_turn h.conserved h.waiters h.roles hran
  toEnd := fun reads => toEnd_turn (h.toEnd reads) h.conserved h.roles hran
  ends := ends_turn h.waiters h.roles h.ends hran
  refuses := refuses_turn h.waiters h.refuses hran
  known := h.known_turn hran

theorem put (h : Permits f) {old new : List (Instr S)} (hk : look f.threads k = some ⟨role, old⟩)
    (hthrown : Thrown old new) (hun : Unwound role old new) : Permits (f.put k role new) where
  waiters := h.waiters.threw hk hthrown
  roles := Threads.forall_put (P := fun _ u => ∀ i ∈ u.code, inRole u.role i) hk
    (inRole_thrown hthrown (h.roles _ _ hk)) h.roles
  conserved := by
    have hf := h.conserved
    have htotal := Threads.total_put AsyncSocketStream.share hk new
    have hshare := hun.share
    unfold Conserved at hf ⊢
    show f.shared.m_waitSem.m_concurrency + _ = 2
    omega
  toEnd := by
    intro reads
    have hf := h.toEnd reads
    have htotal := Threads.total_put (AsyncSocketStream.toEnd reads) hk new
    have hsame := hun.toEnd reads
    omega
  ends := Threads.forall_put
    (P := fun _ u => Reads u.role → Ends (AsyncSocketStream.share u.role) u.code) hk
    (fun _ => hun.ends) h.ends
  refuses := Threads.forall_put
    (P := fun k u => (∃ this, u.role = .start this) → Refuses f.shared k u.code) hk
    (fun hstart => absurd hstart.choose_spec (hun.role _)) h.refuses
  known := by
    intro j hj
    obtain ⟨u, hu, hrefused⟩ := h.known j hj
    by_cases hjk : j = k
    · subst hjk
      cases hk.symm.trans hu
      exact ⟨⟨role, new⟩, by rw [Threads.look_put hk, if_pos rfl], hrefused⟩
    · exact ⟨u, by rw [Threads.look_put hk, if_neg hjk]; exact hu, hrefused⟩

theorem step [DecidableEq S] {f' : Fibers S} {m : Move S} (h : Permits f)
    (hs : Stepped f m f') (hm : Caught f m) : Permits f' := by
  cases hs with
  | returned hm => exact h
  | request this sn =>
    have hadd : Permits (⟨{ f.shared with heap := f.shared.heap ++ [.new sn this f.threads.length] },
        f.threads⟩ : Fibers S) :=
      ⟨⟨h.waiters.sem, h.waiters.waitSem⟩, h.roles, h.conserved, h.toEnd, h.ends, h.refuses, h.known⟩
    exact hadd.start rfl rfl rfl rfl (by simp [requestCode, inRole]) rfl
      (by rintro ⟨this, hthis | hthis⟩ <;> cases hthis) (by rintro ⟨this, hthis⟩; cases hthis)
  | sendMessage =>
    exact h.start rfl rfl rfl rfl (by simp [inRole]) rfl
      (by rintro ⟨this, hthis | hthis⟩ <;> cases hthis) (by rintro ⟨this, hthis⟩; cases hthis)
  | start this =>
    exact h.start rfl rfl rfl rfl (by simp [inRole]) rfl
      (by rintro ⟨this, hthis | hthis⟩ <;> cases hthis) fun _ => .waitFiber false
  | onTimeOut hc hx =>
    exact h.start rfl rfl rfl rfl (by simp [onTimeOutCode, doRspCode, inRole]) rfl
      (by rintro ⟨this, hthis | hthis⟩ <;> cases hthis) (by rintro ⟨this, hthis⟩; cases hthis)
  | close =>
    exact ⟨⟨h.waiters.sem, h.waiters.waitSem⟩, h.roles, h.conserved, h.toEnd, h.ends, h.refuses,
      h.known⟩
  | turn hran => exact h.turn hran
  | threw hk hthrown =>
    exact h.put hk hthrown (unwound_of_caught hthrown (h.roles _ _ hk) ((caught_threw hk).mp hm))

end Permits

def startersHold (f : Fibers S) : ℕ :=
  (f.threads.map fun u =>
    match u.role with
    | .start _ => (u.code.map startShare).sum
    | _ => 0).sum

/-- A fiber of `doRead` or of `doWrite` that has not given its permit back. -/
def liveReaders (f : Fibers S) : ℕ :=
  f.threads.countP fun u =>
    match u.role with
    | .doRead _ => !u.code.isEmpty
    | _ => false

def liveWriters (f : Fibers S) : ℕ :=
  f.threads.countP fun u =>
    match u.role with
    | .doWrite _ => !u.code.isEmpty
    | _ => false

/-- The permits that are free or held are two, there is at most one reader and one writer, and
a `start` that failed gives two permits back until it ends. -/
structure PermitsKept (f : Fibers S) : Prop where
  sum : f.shared.m_waitSem.m_concurrency + startersHold f + liveReaders f + liveWriters f = 2
  reader : liveReaders f ≤ 1
  writer : liveWriters f ≤ 1
  refused : ∀ k ∈ f.shared.refused,
    f.shared.gaveBack.count k + (f.code k).countP givesBack = 2

theorem total_share_eq (h : ∀ u ∈ f.threads, Reads u.role → Ends (share u.role) u.code) :
    Threads.total share f.threads = startersHold f + liveReaders f + liveWriters f := by
  unfold startersHold liveReaders liveWriters
  generalize f.threads = ts at h
  induction ts with
  | nil => rfl
  | cons u ts ih =>
    have hts := ih fun v hv => h v (List.mem_cons_of_mem u hv)
    have hu := h u List.mem_cons_self
    obtain ⟨role, code⟩ := u
    rw [List.map_cons, List.sum_cons, List.countP_cons, List.countP_cons]
    have hcons : Threads.total share (⟨role, code⟩ :: ts) =
        (code.map (share role)).sum + Threads.total share ts := by
      simp [Threads.total]
    rw [hcons, hts]
    cases role with
    | start this =>
      have hshare : (code.map (share (.start this))).sum = (code.map startShare).sum := rfl
      simp [hshare]
      omega
    | doRead this =>
      rw [sum_ends (hu ⟨this, .inl rfl⟩)]
      cases code <;> simp
      omega
    | doWrite this =>
      rw [sum_ends (hu ⟨this, .inr rfl⟩)]
      cases code <;> simp
      omega
    | _ =>
      change (code.map fun _ => 0).sum + _ = _
      simp

theorem one_le_toEnd {u : Thread (Role S) (Instr S)} (h : Reads u.role → Ends (share u.role) u.code)
    (hlive : u.code.isEmpty = false) :
    (∀ this, u.role = .doRead this → 1 ≤ (u.code.map (toEnd true u.role)).sum) ∧
    (∀ this, u.role = .doWrite this → 1 ≤ (u.code.map (toEnd false u.role)).sum) := by
  obtain ⟨role, code⟩ := u
  change code.isEmpty = false at hlive
  constructor
  · rintro this rfl
    have hsum := sum_ends (h ⟨this, .inl rfl⟩)
    rw [hlive] at hsum
    exact hsum.ge
  · rintro this rfl
    have hsum := sum_ends (h ⟨this, .inr rfl⟩)
    rw [hlive] at hsum
    exact hsum.ge

theorem liveReaders_le (h : ∀ u ∈ f.threads, Reads u.role → Ends (share u.role) u.code) :
    liveReaders f ≤ Threads.total (toEnd true) f.threads := by
  refine countP_le_sum_map fun u hu hlive => ?_
  split at hlive
  · next this hrole => exact (one_le_toEnd (h u hu) (by simpa using hlive)).1 this hrole
  · cases hlive

theorem liveWriters_le (h : ∀ u ∈ f.threads, Reads u.role → Ends (share u.role) u.code) :
    liveWriters f ≤ Threads.total (toEnd false) f.threads := by
  refine countP_le_sum_map fun u hu hlive => ?_
  split at hlive
  · next this hrole => exact (one_le_toEnd (h u hu) (by simpa using hlive)).2 this hrole
  · cases hlive

theorem Permits.kept (h : Permits f) : PermitsKept f := by
  have hends : ∀ u ∈ f.threads, Reads u.role → Ends (share u.role) u.code := by
    intro u hu
    obtain ⟨k, hk⟩ := List.mem_iff_getElem?.mp hu
    exact h.ends k u hk
  refine ⟨?_, (liveReaders_le hends).trans (h.toEnd true),
    (liveWriters_le hends).trans (h.toEnd false), ?_⟩
  · have hsum := h.conserved
    unfold Conserved at hsum
    rw [total_share_eq hends] at hsum
    omega
  · intro k hk
    obtain ⟨u, hu, hrole⟩ := h.known k (.inl hk)
    rw [Threads.code_of_look hu]
    rcases h.refuses k u hu (hrole hk) with ⟨hnot, -⟩ | ⟨-, -, hcount⟩
    · exact absurd hk hnot
    · exact hcount

theorem Permits.not_kept (h : Permits f) {old new : List (Instr S)}
    (hk : look f.threads k = some ⟨role, old⟩) (hthrown : Thrown old new)
    (hlost : ¬ (.readLoop ∈ old ∨ .writeLoop ∈ old)) : ¬ PermitsKept (f.put k role new) := by
  have hrole := h.roles k _ hk
  have hheld : new = [] ∧ 0 < (old.map (share role)).sum := by
    cases hthrown with
    | connectCb =>
      have hi : inRole role .connectCb := hrole _ List.mem_cons_self
      cases role <;> cases hi
      exact ⟨rfl, Nat.two_pos⟩
    | startFails | readEnds =>
      have hi : inRole role .close := hrole _ List.mem_cons_self
      cases role <;> cases hi <;> exact ⟨rfl, Nat.le_of_ble_eq_true rfl⟩
    | readLoop => exact absurd (.inl (by simp)) hlost
    | writeLoop => exact absurd (.inr (by simp)) hlost
  obtain ⟨rfl, hpos⟩ := hheld
  intro hkept
  have hends : ∀ u ∈ (f.put k role []).threads, Reads u.role → Ends (share u.role) u.code := by
    intro u hu
    have hown : Reads role → Ends (share role) ([] : List (Instr S)) := fun _ => trivial
    obtain ⟨j, hj⟩ := List.mem_iff_getElem?.mp hu
    exact Threads.forall_put (P := fun _ u => Reads u.role → Ends (share u.role) u.code) hk hown
      h.ends j u hj
  have hsum := hkept.sum
  have htotal := total_share_eq hends
  have hput : _ = Threads.total share f.threads + 0 := Threads.total_put share hk []
  have hf := h.conserved
  unfold Conserved at hf
  change f.shared.m_waitSem.m_concurrency + _ + _ + _ = 2 at hsum
  omega

/-- However `start`, `doRead` and `doWrite` run beside each other and beside the requests. -/
theorem start_permits_kept_iff [DecidableEq S] (connected : Bool) (iomanager : Option S)
    (ms : List (Move S)) :
    Along step PermitsKept (init connected iomanager) ms ↔
      Each step Caught (init connected iomanager) ms := by
  have hinit : Permits (init connected iomanager) := .init connected iomanager
  apply along_iff_each (fun f => PermitsKept f → Permits f) PermitsKept fun _ _ => True
  · intro f m f' hf hkept _ hstep
    have hpermits := hf hkept
    have hs := step_stepped hstep
    by_cases hm : Caught f m
    · have hpermits' := hpermits.step hs hm
      exact ⟨fun _ => hpermits', fun _ => hm, fun _ => hpermits'.kept⟩
    · have hlost : ¬ PermitsKept f' := by
        cases m with
        | threw k =>
          obtain ⟨role, old, new, hk, hthrown, rfl⟩ := threw_thrown hstep
          exact hpermits.not_kept hk hthrown (mt (caught_threw hk).mpr hm)
        | _ => exact absurd trivial hm
      exact ⟨fun h => absurd h hlost, fun h => absurd h hlost, fun h => absurd h hm⟩
  · exact fun _ => hinit
  · exact hinit.kept
  · exact each_true ms _

def connectCbThrows : List (Move ℕ) :=
  [.start (some 7), .turn 0 .quiet, .turn 0 .quiet, .turn 0 (.outcome true), .threw 0]

/-- Both permits are gone, and every later `start` waits for ever. -/
theorem start_permits_lost :
    ¬ ∀ ms : List (Move ℕ), Along step PermitsKept (init false (some 7)) ms := by
  intro hall
  have hlast := (hall connectCbThrows).last rfl
  exact absurd hlast.sum (by decide)

end AsyncSocketStream

end Sylar
