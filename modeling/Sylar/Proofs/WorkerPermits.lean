import Sylar.Proofs.WorkerGroup

/-! What the permits of a `WorkerGroup` are good for: no more callbacks than permits are in
flight, and a `waitAll` that runs its loop returns after every callback that came before it.
A callback that throws keeps its permit. -/

namespace Sylar

open Lib

namespace WorkerGroup

variable {S : Type} {g g' : WorkerGroup S}

/-- The callback has ended. Without permits none is ever scheduled. -/
def Over (g : WorkerGroup S) (job : Job) : Prop :=
  job.over = true ∨ job = .waiting ∧ g.m_batchSize.toNat = 0

/-- A call of `waitAll` has returned, from its loop or at once, and the callbacks that came
before it have ended. -/
def WaitedForAll (g : WorkerGroup S) (looped : Bool) : Prop :=
  ∀ (a c : ℕ) (job : Job), look g.calls a = some (.waitAll (.returned looped)) → c < a →
    look g.calls c = some (.schedule job) → g.Over job

structure Safe (g : WorkerGroup S) : Prop where
  in_flight : g.calls.countP GroupCall.inFlight ≤ g.m_batchSize.toNat
  waited : ∀ looped, g.WaitedForAll looped

theorem Inv.in_flight (h : Inv g) :
    g.calls.countP GroupCall.inFlight ≤ g.m_batchSize.toNat := by
  have hle := countP_le_sum_map (p := GroupCall.inFlight)
    (f := GroupCall.holds g.m_batchSize.toNat) (l := g.calls) ?_
  · have hpermits := h.permits
    omega
  · intro call _ hcall
    cases call with
    | schedule job => cases job <;> first | rfl | cases hcall
    | waitAll stage => cases hcall

theorem Inv.waited (h : Inv g) : g.WaitedForAll true := by
  intro a c job ha hca hc
  have hpermits := h.permits
  have hsum : g.m_batchSize.toNat + job.holds.toNat ≤ _ :=
    add_le_sum_map (GroupCall.holds g.m_batchSize.toNat) ha hc hca.ne
  have hjob : job.holds = false := by
    cases hholds : job.holds with
    | false => rfl
    | true =>
      rw [hholds, Bool.toNat_true] at hsum
      omega
  cases job with
  | finished => exact .inl rfl
  | waiting =>
    refine .inr ⟨rfl, ?_⟩
    by_contra hne
    exact h.line.passed a _ ha (Nat.pos_of_ne_zero hne) c hca hc
  | permitted | queued | working | worked | threw => cases hjob

theorem look_update {calls : ℕ → Option GroupCall} {d a : ℕ} {call call' : GroupCall}
    (h : Function.update calls d (some call) a = some call') :
    a = d ∧ call = call' ∨ a ≠ d ∧ calls a = some call' := by
  by_cases had : a = d
  · rw [had, Function.update_self] at h
    exact .inl ⟨had, Option.some.inj h⟩
  · rw [Function.update_of_ne had] at h
    exact .inr ⟨had, h⟩

theorem look_handed {c d a : ℕ} {call : GroupCall} (hc : look g.calls c = some (.schedule .worked))
    (ha : look ((g.calls.set c (.schedule .finished)).modify d GroupCall.resume) a = some call) :
    a = c ∧ call = .schedule .finished ∨
      ∃ old, look g.calls a = some old ∧ (call = old ∨ call = old.resume) := by
  rw [look_modify, look_set hc] at ha
  split at ha
  · obtain ⟨old, hold, rfl⟩ := Option.map_eq_some_iff.mp ha
    rcases look_update hold with ⟨hac, rfl⟩ | ⟨-, hold⟩
    · exact .inl ⟨hac, rfl⟩
    · exact .inr ⟨old, hold, .inr rfl⟩
  · rcases look_update ha with ⟨hac, rfl⟩ | ⟨-, hold⟩
    · exact .inl ⟨hac, rfl⟩
    · exact .inr ⟨call, hold, .inl rfl⟩

theorem returned_effect {m : GroupMove S} (he : Effect g m g')
    (hm : ¬ (m = .waitAll ∧ g.m_finish = true)) {a : ℕ}
    (ha : look g'.calls a = some (.waitAll (.returned false))) :
    look g.calls a = some (.waitAll (.returned false)) := by
  have hold : ∀ {d : ℕ} {call : GroupCall}, call ≠ .waitAll (.returned false) →
      look g'.calls = Function.update (look g.calls) d (some call) →
      look g.calls a = some (.waitAll (.returned false)) := by
    intro d call hcall hlook
    rw [hlook] at ha
    exact ((look_update ha).resolve_left fun h => hcall h.2).2
  cases he with
  | permitted this hpos => exact hold (by simp) (look_append _ _)
  | blocked scheduler hzero => exact hold (by simp) (look_append _ _)
  | advance m c job next hc hjob hover hnext hthrew => exact hold (by simp) (look_set hc _)
  | handed c next rest hc hw =>
    rcases look_handed hc ha with ⟨-, hcall⟩ | ⟨old, hlook, heq | heq⟩
    · cases hcall
    · exact heq ▸ hlook
    · unfold GroupCall.resume at heq
      split at heq
      · cases heq
      · cases heq
      · exact heq ▸ hlook
  | counted c hc hw => exact hold (by simp) (look_set hc _)
  | skipped hfinish => exact absurd ⟨rfl, hfinish⟩ hm
  | began hfinish => exact hold (by simp) (look_append _ _)
  | collected c i this hc hi hpos => exact hold (by simp) (look_set hc _)
  | lined c i scheduler hc hi hzero => exact hold (by simp) (look_set hc _)
  | returned c i this hc hi => exact hold (by simp) (look_set hc _)

theorem over_effect {m : GroupMove S} (h : Inv g) (he : Effect g m g') {c : ℕ} {job : Job}
    (hc : look g'.calls c = some (.schedule job)) (hlt : c < g.calls.length) :
    ∃ old, look g.calls c = some (.schedule old) ∧ (g.Over old → g'.Over job) := by
  have hsame : look g.calls c = some (.schedule job) → g'.m_batchSize = g.m_batchSize →
      ∃ old, look g.calls c = some (.schedule old) ∧ (g.Over old → g'.Over job) := by
    intro hold hbatch
    refine ⟨job, hold, fun hover => ?_⟩
    unfold Over
    rw [hbatch]
    exact hover
  have happend : ∀ {call : GroupCall}, look (g.calls ++ [call]) c = some (.schedule job) →
      look g.calls c = some (.schedule job) := by
    intro call hc
    rw [look_append] at hc
    exact ((look_update hc).resolve_left fun h => absurd h.1 hlt.ne).2
  cases he with
  | permitted this hpos => exact hsame (happend hc) rfl
  | blocked scheduler hzero => exact hsame (happend hc) rfl
  | advance m d old next hd hjob hover hnext hthrew =>
    rw [setCall, look_set hd] at hc
    rcases look_update hc with ⟨rfl, hcall⟩ | ⟨-, hc⟩
    · refine ⟨old, hd, ?_⟩
      rintro (hold | ⟨rfl, -⟩)
      · rw [hover] at hold
        cases hold
      · cases hjob
    · exact hsame hc rfl
  | handed d next rest hd hw =>
    rcases look_handed hd hc with ⟨rfl, hcall⟩ | ⟨old, hlook, heq | heq⟩
    · cases hcall
      exact ⟨.worked, hd, fun _ => .inl rfl⟩
    · exact hsame (heq ▸ hlook) rfl
    · cases old with
      | waitAll stage => cases stage <;> cases heq
      | schedule old =>
        refine ⟨old, hlook, ?_⟩
        cases old with
        | waiting =>
          -- where there is a permit to hand on, `m_batchSize` is not zero
          rintro (hold | ⟨-, hzero⟩)
          · cases hold
          · have hle : 1 ≤ g.m_batchSize.toNat := h.holds_le hd
            omega
        | _ =>
          cases heq
          exact id
  | counted d hd hw =>
    rw [look_set hd] at hc
    rcases look_update hc with ⟨rfl, hcall⟩ | ⟨-, hc⟩
    · cases hcall
      exact ⟨.worked, hd, fun _ => .inl rfl⟩
    · exact hsame hc rfl
  | skipped hfinish => exact hsame (happend hc) rfl
  | began hfinish => exact hsame (happend hc) rfl
  | collected d i this hd hi hpos =>
    rw [look_set hd] at hc
    exact hsame ((look_update hc).resolve_left fun h => by cases h.2).2 rfl
  | lined d i scheduler hd hi hzero =>
    rw [look_set hd] at hc
    exact hsame ((look_update hc).resolve_left fun h => by cases h.2).2 rfl
  | returned d i this hd hi =>
    rw [setCall, look_set hd] at hc
    exact hsame ((look_update hc).resolve_left fun h => by cases h.2).2 rfl

/-- A `waitAll` that finds `m_finish` set comes when the callbacks so far have ended. -/
def Late (g : WorkerGroup S) (m : GroupMove S) : Prop :=
  m = .waitAll → g.m_finish = true →
    ∀ (c : ℕ) (job : Job), look g.calls c = some (.schedule job) → g.Over job

theorem safe_iff {m : GroupMove S} (h : Inv g) (hsafe : Safe g) (hs : g.step m = .ok g') :
    Safe g' ↔ Late g m := by
  have he := step_effect hs
  have h' := inv_effect h he
  by_cases hm : m = .waitAll ∧ g.m_finish = true
  · obtain ⟨rfl, hfinish⟩ := hm
    obtain rfl : g' = { g with calls := g.calls ++ [.waitAll (.returned false)] } :=
      (Except.ok.inj hs).symm.trans (if_pos hfinish)
    constructor
    · intro hsafe' _ _ c job hc
      have ha : look (g.calls ++ [.waitAll (.returned false)]) g.calls.length =
          some (.waitAll (.returned false)) := by
        rw [look_append, Function.update_self]
      exact hsafe'.waited false _ c job ha (lt_length_of_look hc) (look_append_old hc _)
    · intro hlate
      refine ⟨h'.in_flight, fun looped => ?_⟩
      cases looped with
      | true => exact h'.waited
      | false =>
        intro a c job ha hca hc
        have hlt : c < g.calls.length := by
          have hle : a < (g.calls ++ [_]).length := lt_length_of_look ha
          rw [List.length_append, List.length_singleton] at hle
          omega
        obtain ⟨old, hold, hover⟩ := over_effect h he hc hlt
        exact hover (hlate rfl hfinish c old hold)
  · refine iff_of_true ⟨h'.in_flight, fun looped => ?_⟩ fun hwait hfinish => absurd ⟨hwait, hfinish⟩ hm
    cases looped with
    | true => exact h'.waited
    | false =>
      intro a c job ha hca hc
      have hold := returned_effect he hm ha
      obtain ⟨old, hc', hover⟩ := over_effect h he hc (hca.trans (lt_length_of_look hold))
      exact hover (hsafe.waited false a c old hold hca hc')

theorem safe_along_iff (batch : UInt32) (ms : List (GroupMove S)) :
    Along step Safe (new batch) ms ↔ Each step Late (new batch) ms := by
  refine along_iff_each Inv Safe (fun _ _ => True) Late ?_ ms (new batch) (inv_new batch)
    ⟨(inv_new batch).in_flight, fun _ a c job ha => by cases ha⟩ (each_true ms _)
  intro g m g' h hsafe _ hs
  exact ⟨inv_effect h (step_effect hs), safe_iff h hsafe hs⟩

/-- What a semaphore and a group promise holds all along a run exactly if no `notify` finds the
counter at its maximum and no `waitAll` finds `m_finish` set too early. -/
theorem semaphore_and_group_lawful_iff (S F : Type) (n : UInt64) (sems : List (SemMove S F))
    (batch : UInt32) (ms : List (GroupMove S)) :
    (Along SemRun.step (SemRun.Kept n.toNat) (SemRun.init n.toNat) sems ↔
      Each SemRun.step SemRun.NoWrap (SemRun.init n.toNat) sems) ∧
    (Along step Safe (new batch) ms ↔ Each step Late (new batch) ms) := by
  constructor
  · exact SemRun.kept_along_iff n.toNat sems
  · exact safe_along_iff batch ms

/-- The second `waitAll` finds `m_finish` set and returns while the callback is running. -/
def waitedTwice : List (GroupMove Unit) :=
  [.schedule (some ()), .hand 0, .start 0, .waitAll, .collect 1 (some ()), .waitAll]

theorem counter_wraps_and_second_waitAll_skips :
    (¬ ∀ (n : UInt64) (ms : List (SemMove Unit Unit)),
      Along SemRun.step (SemRun.Kept n.toNat) (SemRun.init n.toNat) ms) ∧
      ¬ ∀ (batch : UInt32) (ms : List (GroupMove Unit)), (∀ m ∈ ms, ¬ m.throws) →
        Along step Safe (new batch) ms := by
  constructor
  · intro hall
    have hlast := ((hall (2 ^ 64 - 1) [.notify]).last rfl).conserved
    revert hlast
    unfold SemRun.Conserved
    decide +kernel
  · intro hall
    have hlast := (hall 1 waitedTwice (by decide)).last rfl
    rcases hlast.waited false 2 0 .working rfl (by decide) rfl with hjob | ⟨hjob, -⟩ <;> cases hjob

/-- One permit for two callbacks, and `waitAll` comes between them. -/
def oneAtATime : List (GroupMove Unit) :=
  [.schedule (some ()), .waitAll, .schedule (some ()), .collect 1 (some ()), .hand 0, .start 0,
    .finish 0 false, .notify 0, .hand 2, .start 2, .finish 2 false, .notify 2,
    .collect 1 (some ())]

def AllEnded (g : WorkerGroup S) : Prop :=
  ∀ (c : ℕ) (job : Job), g.calls[c]? = some (.schedule job) → job.ended

/-- A callback that has ended has given its permit back. When all have, the permits are in the
semaphore but for those that a `waitAll` has collected, and none of these waits for more. -/
structure GivesBack (g : WorkerGroup S) : Prop where
  given_back : ∀ (c : ℕ) (job : Job), g.calls[c]? = some (.schedule job) → job.ended →
    job = .finished
  all_back : g.AllEnded → g.m_sem.m_concurrency +
    (g.calls.map (GroupCall.collected g.m_batchSize.toNat)).sum = g.m_batchSize.toNat
  none_left : g.AllEnded → ∀ a i : ℕ, g.calls[a]? ≠ some (.waitAll (.waiting i))

def NoneThrew (g : WorkerGroup S) : Prop := ∀ c, look g.calls c ≠ some (.schedule .threw)

theorem finished_of_ended (h : g.NoneThrew) {c : ℕ} {job : Job}
    (hc : look g.calls c = some (.schedule job)) (hjob : job.ended) : job = .finished := by
  cases job with
  | finished => rfl
  | threw => exact absurd hc (h c)
  | waiting | permitted | queued | working | worked => cases hjob

theorem holds_of_ended (h : g.NoneThrew) (hended : g.AllEnded) {c : ℕ} {call : GroupCall}
    (hc : look g.calls c = some call) :
    call.holds g.m_batchSize.toNat = call.collected g.m_batchSize.toNat ∧
      (¬ call.loops → call.holds g.m_batchSize.toNat = 0) := by
  cases call with
  | schedule job =>
    rw [finished_of_ended h hc (hended c job hc)]
    exact ⟨rfl, fun _ => rfl⟩
  | waitAll stage =>
    refine ⟨rfl, fun hloops => ?_⟩
    cases stage with
    | before i | waiting i => exact absurd rfl hloops
    | returned looped =>
      cases looped with
      | false => rfl
      | true => exact absurd rfl hloops

theorem Inv.all_back (h : Inv g) (hnone : g.NoneThrew) (hended : g.AllEnded) :
    g.m_sem.m_concurrency + (g.calls.map (GroupCall.collected g.m_batchSize.toNat)).sum =
      g.m_batchSize.toNat := by
  have hmap : g.calls.map (GroupCall.collected g.m_batchSize.toNat) =
      g.calls.map (GroupCall.holds g.m_batchSize.toNat) := by
    apply List.map_congr_left
    intro call hcall
    obtain ⟨c, hc⟩ := List.mem_iff_getElem?.mp hcall
    exact (holds_of_ended hnone hended hc).1.symm
  rw [hmap]
  exact h.permits

theorem Inv.none_left (h : Inv g) (hnone : g.NoneThrew) (hended : g.AllEnded) (a i : ℕ) :
    look g.calls a ≠ some (.waitAll (.waiting i)) := by
  intro ha
  have hmem : a ∈ g.m_sem.m_waiters.map Prod.snd := (h.line.mem_iff a).mpr ⟨_, ha, rfl⟩
  have hzero : g.m_sem.m_concurrency = 0 := by
    by_contra hne
    rw [h.idle (Nat.pos_of_ne_zero hne)] at hmem
    cases hmem
  -- nobody else has a permit, so the call that waits has all of them
  have hsum : _ + i = _ + 0 :=
    sum_map_set (GroupCall.holds g.m_batchSize.toNat) ha (.schedule .finished)
  have hothers : ((g.calls.set a (.schedule .finished)).map
      (GroupCall.holds g.m_batchSize.toNat)).sum = 0 := by
    apply List.sum_eq_zero
    intro k hk
    obtain ⟨call, hcall, rfl⟩ := List.mem_map.mp hk
    obtain ⟨c, hc⟩ := List.mem_iff_getElem?.mp hcall
    have hc : look (g.calls.set a (.schedule .finished)) c = some call := hc
    rw [look_set ha] at hc
    by_cases hca : c = a
    · rw [hca, Function.update_self] at hc
      cases hc
      rfl
    · rw [Function.update_of_ne hca] at hc
      apply (holds_of_ended hnone hended hc).2
      intro hloops
      exact hca (h.loops.one c a _ _ hc ha hloops rfl)
  have hlt := h.loops.turns a i ha
  have hpermits := h.permits
  omega

theorem givesBack_iff (h : Inv g) : GivesBack g ↔ g.NoneThrew := by
  constructor
  · intro hback c hc
    cases hback.given_back c .threw hc rfl
  · intro hnone
    exact ⟨fun c job => finished_of_ended hnone, h.all_back hnone, h.none_left hnone⟩

theorem noneThrew_update (h : g.NoneThrew) {c : ℕ} {call : GroupCall}
    (hlook : look g'.calls = Function.update (look g.calls) c (some call)) :
    g'.NoneThrew ↔ call ≠ .schedule .threw := by
  unfold NoneThrew
  rw [hlook]
  constructor
  · intro hall hcall
    apply hall c
    rw [Function.update_self, hcall]
  · intro hcall d
    by_cases hd : d = c
    · rw [hd, Function.update_self]
      exact fun hsome => hcall (Option.some.inj hsome)
    · rw [Function.update_of_ne hd]
      exact h d

theorem resume_threw {call : GroupCall} (h : call.resume = .schedule .threw) :
    call = .schedule .threw := by
  unfold GroupCall.resume at h
  split at h
  · cases h
  · cases h
  · exact h

theorem noneThrew_handed (h : g.NoneThrew) (c d : ℕ) (sem : FiberSemaphore S ℕ)
    (hc : look g.calls c = some (.schedule .worked)) :
    NoneThrew { g with
      m_sem := sem
      calls := (g.calls.set c (.schedule .finished)).modify d GroupCall.resume } := by
  have hset : NoneThrew { g with calls := g.calls.set c (.schedule .finished) } :=
    (noneThrew_update h (look_set hc _)).mpr (by simp)
  intro e he
  have he : ((g.calls.set c (.schedule .finished)).modify d GroupCall.resume)[e]? =
    some (.schedule .threw) := he
  rw [List.getElem?_modify] at he
  obtain ⟨call, hcall, hthrew⟩ := Option.map_eq_some_iff.mp he
  have hcall' : call = .schedule .threw := by
    split at hthrew
    · exact resume_threw hthrew
    · exact hthrew
  exact hset e (hcall' ▸ hcall)

theorem noneThrew_effect {m : GroupMove S} (h : g.NoneThrew) (he : Effect g m g') :
    g'.NoneThrew ↔ ¬ m.throws := by
  cases he with
  | advance m c job next hc hjob hover hnext hthrew =>
    rw [noneThrew_update h (look_set hc _), ← hthrew]
    simp
  | handed c next rest hc hw =>
    exact iff_of_true (noneThrew_handed h c next.2 _ hc) (by simp [GroupMove.throws])
  | permitted this hpos =>
    rw [noneThrew_update h (look_append _ _)]
    simp [GroupMove.throws]
  | blocked scheduler hzero =>
    rw [noneThrew_update h (look_append _ _)]
    simp [GroupMove.throws]
  | counted c hc hw =>
    rw [noneThrew_update h (look_set hc _)]
    simp [GroupMove.throws]
  | skipped hfinish =>
    rw [noneThrew_update h (look_append _ _)]
    simp [GroupMove.throws]
  | began hfinish =>
    rw [noneThrew_update h (look_append _ _)]
    simp [GroupMove.throws]
  | collected c i this hc hi hpos =>
    rw [noneThrew_update h (look_set hc _)]
    simp [GroupMove.throws]
  | lined c i scheduler hc hi hzero =>
    rw [noneThrew_update h (look_set hc _)]
    simp [GroupMove.throws]
  | returned c i this hc hi =>
    rw [noneThrew_update h (look_set hc _)]
    simp [GroupMove.throws]

/-- The permits are all given back exactly when no callback throws. -/
theorem permits_given_back_iff (batch : UInt32) (ms : List (GroupMove S)) :
    Along step GivesBack (new batch) ms ↔ Each step (fun _ m => ¬ m.throws) (new batch) ms := by
  refine along_iff_each Inv GivesBack (fun _ _ => True) (fun _ m => ¬ m.throws) ?_ ms (new batch)
    (inv_new batch) ?_ (each_true ms _)
  · intro g m g' h hback _ hs
    have h' := inv_effect h (step_effect hs)
    refine ⟨h', ?_⟩
    rw [givesBack_iff h']
    exact noneThrew_effect ((givesBack_iff h).mp hback) (step_effect hs)
  · exact (givesBack_iff (inv_new batch)).mpr fun c hc => by cases hc

theorem permits_given_back_iff_one_at_a_time :
    (oneAtATime.foldlM step (new 1)).isOk ∧ Along step GivesBack (new 1) oneAtATime :=
  ⟨by decide, (permits_given_back_iff 1 oneAtATime).mpr (by decide)⟩

/-- The only callback throws, and `waitAll` waits for its permit. -/
def thrownOnce : List (GroupMove Unit) :=
  [.schedule (some ()), .hand 0, .start 0, .finish 0 true, .waitAll, .collect 1 (some ())]

theorem thrown_permit_is_lost :
    ¬ ∀ (batch : UInt32) (ms : List (GroupMove Unit)), Along step GivesBack (new batch) ms := by
  intro hall
  have hlast := (hall 1 thrownOnce).last rfl
  refine hlast.none_left ?_ 1 0 rfl
  intro c job hc
  match c with
  | 0 =>
    cases hc
    rfl
  | 1 => cases hc
  | c + 2 => cases hc

end WorkerGroup

end Sylar
