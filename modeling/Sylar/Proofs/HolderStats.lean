import Sylar.Spec.HolderStats
import Sylar.Lib.Partial

/-! `m_doing` is the number of requests in flight for as long as no slot is cleared under a
request. -/

namespace Sylar

open Lib

namespace ItemStats

/-- The requests that were counted in a slot and have not ended. -/
def inFlight (f : Calls) (slot : ℕ) : ℕ :=
  f.threads.countP fun u => u.code.contains (.decDoing slot)

def DoingCounts (f : Calls) : Prop :=
  ∀ slot x, look f.shared.m_stats slot = some x → x.m_doing.toNat = inFlight f slot

def NotBelowZero (f : Calls) : Move → Prop
  | .turn k _ => ∀ slot, (f.code k).head? = some (.decDoing slot) →
      ∀ x, look f.shared.m_stats slot = some x → 0 < x.m_doing.toNat
  | _ => True

/-- No slot is cleared in which a request is counted, and no counter is at its maximum when a
request is. -/
def KeepsDoing (f : Calls) : Move → Prop
  | .turn k _ =>
      (∀ now t i, (f.code k).head? = some (.clearNext now t i) → t ≤ now →
        i < f.shared.m_stats.length → inFlight f (f.shared.slot t) = 0) ∧
      (∀ slot ts, (f.code k).head? = some (.incDoing slot ts) →
        ∀ x, look f.shared.m_stats slot = some x → x.m_doing.toNat + 1 < 2 ^ 32)
  | _ => True

def doing (slot : ℕ) : Call → Instr → ℕ
  | _, .decDoing n => if n = slot then 1 else 0
  | _, _ => 0

variable {f : Calls} {s : ItemStats} {k : ℕ} {call : Call} {i : Instr} {result : Int32}
  {t : CallTurn} {rest : List Instr} {n : ℕ}

def SameDoing (_ : ℕ) (x x' : HolderStats) : Prop := x'.m_doing = x.m_doing

theorem SameDoing.refl (slot : ℕ) (x : HolderStats) : SameDoing slot x x := rfl

/-- The steps after which nothing else is to be done, and those that go on. -/
def plain : Instr → Bool
  | .getCurrentMS | .incDoing _ _ | .decDoing _ => false
  | _ => true

/-- No counter of requests changes, a slot is cleared, or a request comes or goes. -/
inductive Counted (s : ItemStats) : Instr → ItemStats → List Instr → Prop
  | began {now : UInt32} {ts : UInt64} :
      Counted s .getCurrentMS s [.init now, .incDoing (s.slot now) ts]
  | other {i : Instr} {s' : ItemStats} {next : List Instr} (hi : plain i = true)
      (hsame : Changes SameDoing s.m_stats s'.m_stats) (hnext : ∀ j ∈ next, plain j = true)
      (hclear : ∀ now t n, i = .clearNext now t n → ¬ (t ≤ now ∧ n < s.m_stats.length)) :
      Counted s i s' next
  | cleared {now t : UInt32} {n : ℕ} (ht : t ≤ now) (hn : n < s.m_stats.length) :
      Counted s (.clearNext now t n) (s.set (s.slot t) .clear) [.clearNext now (t + 1) (n + 1)]
  | came (slot : ℕ) (ts : UInt64) :
      Counted s (.incDoing slot ts) (s.set slot (.incDoing 1))
        [.incTotal slot, .request slot ts, .decDoing slot]
  | went (slot : ℕ) : Counted s (.decDoing slot) (s.set slot (.decDoing 1)) []

theorem plain_outcome (slot : ℕ) (ts : UInt64) :
    ∀ j ∈ s.outcome slot ts result, plain j = true := by
  intro j hj
  unfold outcome at hj
  split at hj
  · simp only [List.mem_cons, List.not_mem_nil, or_false] at hj
    rcases hj with rfl | rfl <;> rfl
  · split at hj
    · cases List.mem_singleton.mp hj
      rfl
    · split at hj
      · cases List.mem_singleton.mp hj
        rfl
      · cases hj

theorem Counted.counter {g : HolderStats → HolderStats} (hi : plain i = true)
    (hg : ∀ x, (g x).m_doing = x.m_doing) (hclear : ∀ now t n, i ≠ .clearNext now t n) (slot : ℕ) :
    Counted s i (s.set slot g) [] :=
  .other hi (.modify SameDoing.refl fun x _ => hg x) (by simp)
    fun now t n heq => absurd heq (hclear now t n)

theorem exec_counted (h : s.exec k call i result = .ok t) :
    ∃ s' next, t = .only s' next ∧ Counted s i s' next := by
  have hsame : Changes SameDoing s.m_stats s.m_stats := .refl SameDoing.refl _
  cases i with
  | getCurrentMS => exact ⟨_, _, (Except.ok.inj h).symm, .began⟩
  | init now =>
    refine ⟨_, _, (Except.ok.inj h).symm, .other rfl hsame ?_ (by simp)⟩
    intro j hj
    split at hj
    · simp only [List.mem_cons, List.not_mem_nil, or_false] at hj
      rcases hj with rfl | rfl <;> rfl
    · cases hj
  | clearNext now t n =>
    simp only [exec] at h
    split at h
    · next hloop => exact ⟨_, _, (Except.ok.inj h).symm, .cleared hloop.1 hloop.2⟩
    · next hloop =>
      refine ⟨_, _, (Except.ok.inj h).symm, .other rfl hsame (by simp) ?_⟩
      intro now' t' n' heq
      cases heq
      exact hloop
  | incDoing slot ts => exact ⟨_, _, (Except.ok.inj h).symm, .came slot ts⟩
  | decDoing slot => exact ⟨_, _, (Except.ok.inj h).symm, .went slot⟩
  | request slot ts =>
    exact ⟨_, _, (Except.ok.inj h).symm, .other rfl hsame (plain_outcome slot ts) (by simp)⟩
  | time | initLoop now =>
    exact ⟨_, _, (Except.ok.inj h).symm, .other rfl hsame (by simp [plain]) (by simp)⟩
  | setLastUpdateTime now =>
    exact ⟨_, _, (Except.ok.inj h).symm, .other rfl hsame (by simp) (by simp)⟩
  | _ =>
    refine ⟨_, _, (Except.ok.inj h).symm, .counter rfl ?_ ?_ _⟩
    · exact fun _ => rfl
    · simp

def inRange (n : ℕ) : Instr → Prop
  | .incDoing slot _ | .decDoing slot => slot < n
  | _ => True

/-- A request counts itself last, and is counted off last. -/
def Fits (n : ℕ) : List Instr → Prop
  | [] => True
  | i :: rest => (plain i = true ∨ rest = [] ∧ inRange n i) ∧ Fits n rest

theorem fits_append {next : List Instr} (hnext : ∀ j ∈ next, plain j = true) (hrest : Fits n rest) :
    Fits n (next ++ rest) := by
  induction next with
  | nil => exact hrest
  | cons j next ih =>
    exact ⟨.inl (hnext j List.mem_cons_self), ih fun j hj => hnext j (List.mem_cons_of_mem _ hj)⟩

theorem Counted.fits {s' : ItemStats} {next : List Instr} (h : Counted s i s' next)
    (hpos : 0 < s.m_stats.length) (hfits : Fits s.m_stats.length (i :: rest)) :
    Fits s.m_stats.length (next ++ rest) := by
  obtain ⟨hi, hrest⟩ := hfits
  cases h with
  | began =>
    obtain ⟨rfl, -⟩ := hi.resolve_left (by simp [plain])
    exact ⟨.inl rfl, .inr ⟨rfl, Nat.mod_lt _ hpos⟩, trivial⟩
  | other hplain hsame hnext hclear => exact fits_append hnext hrest
  | cleared ht hn => exact ⟨.inl rfl, hrest⟩
  | came slot ts =>
    obtain ⟨rfl, hslot⟩ := hi.resolve_left (by simp [plain])
    exact ⟨.inl rfl, .inl rfl, .inr ⟨rfl, hslot⟩, trivial⟩
  | went slot => exact hrest

theorem doing_plain (hi : plain i = true) (slot : ℕ) : doing slot call i = 0 := by
  cases i with
  | decDoing n => cases hi
  | _ => rfl

theorem sum_doing {code : List Instr} (h : Fits n code) (slot : ℕ) :
    (code.map (doing slot call)).sum = if code.contains (.decDoing slot) then 1 else 0 := by
  induction code with
  | nil => rfl
  | cons i rest ih =>
    rw [List.map_cons, List.sum_cons, ih h.2]
    rcases h.1 with hplain | ⟨rfl, -⟩
    · have hne : i ≠ .decDoing slot := by
        rintro rfl
        cases hplain
      rw [doing_plain hplain, List.contains_cons]
      simp [hne.symm]
    · cases i with
      | decDoing m =>
        by_cases hm : m = slot
        · simp [doing, hm]
        · simp [doing, hm, Ne.symm hm]
      | _ => simp [doing]

theorem countP_eq_total {ts : List (Thread Call Instr)} (h : ∀ u ∈ ts, Fits n u.code) (slot : ℕ) :
    (ts.countP fun u => u.code.contains (.decDoing slot)) = Threads.total (doing slot) ts := by
  induction ts with
  | nil => rfl
  | cons u ts ih =>
    have hts := ih fun v hv => h v (List.mem_cons_of_mem u hv)
    have hcons : Threads.total (doing slot) (u :: ts) =
        (u.code.map (doing slot u.role)).sum + Threads.total (doing slot) ts := by
      simp [Threads.total]
    rw [List.countP_cons, hts, hcons, sum_doing (h u List.mem_cons_self)]
    omega

structure Sound (f : Calls) : Prop where
  slots : 0 < f.shared.m_stats.length
  fits : ∀ k u, look f.threads k = some u → Fits f.shared.m_stats.length u.code

namespace Sound

theorem init (clock : UInt64) : Sound (init clock) where
  slots := by simp [ItemStats.init, HolderStatsSet.new]
  fits := fun k u hu => by simp [ItemStats.init, look] at hu

theorem inFlight_eq (h : Sound f) (slot : ℕ) :
    inFlight f slot = Threads.total (doing slot) f.threads := by
  refine countP_eq_total (n := f.shared.m_stats.length) (fun u hu => ?_) slot
  obtain ⟨k, hk⟩ := List.mem_iff_getElem?.mp hu
  exact h.fits k u hk

theorem start (h : Sound f) (hi : inRange f.shared.m_stats.length i) :
    Sound (f.start f.shared call [i]) := by
  refine ⟨h.slots, fun k u hu => ?_⟩
  rcases Threads.look_start_cases hu with ⟨-, rfl⟩ | hu
  · exact ⟨.inr ⟨rfl, hi⟩, trivial⟩
  · exact h.fits k u hu

end Sound

theorem length_counted {s' : ItemStats} {next : List Instr} (h : Counted s i s' next) :
    s'.m_stats.length = s.m_stats.length := by
  cases h with
  | began => rfl
  | other hi hsame hnext hclear => exact hsame.length_eq
  | cleared ht hn => exact List.length_modify _ _ _
  | came slot ts => exact List.length_modify _ _ _
  | went slot => exact List.length_modify _ _ _

section Turn

variable {s' : ItemStats} {next : List Instr}
  (hk : look f.threads k = some ⟨call, i :: rest⟩) (hcounted : Counted f.shared i s' next)

include hk hcounted

theorem Sound.turn (h : Sound f) : Sound (f.after id k call rest (.only s' next)) := by
  have hlen := length_counted hcounted
  refine ⟨hlen ▸ h.slots, ?_⟩
  rw [show (f.after id k call rest (.only s' next)).shared.m_stats.length = _ from hlen]
  apply Threads.forall_after_only (P := fun _ u => Fits f.shared.m_stats.length u.code) id hk
  · exact hcounted.fits h.slots (h.fits k _ hk)
  · exact fun j u _ hu => h.fits j u hu

theorem inFlight_turn (h : Sound f) (slot : ℕ) :
    inFlight (f.after id k call rest (.only s' next)) slot + doing slot call i =
      inFlight f slot + (next.map (doing slot call)).sum := by
  have htotal : Threads.total (doing slot) (f.after id k call rest (.only s' next)).threads + _ = _ :=
    Threads.total_after (doing slot) hk rfl
  rw [h.inFlight_eq, (h.turn hk hcounted).inFlight_eq]
  exact htotal

theorem inFlight_turn_eq (h : Sound f) (hi : ∀ slot, doing slot call i = 0)
    (hnext : ∀ slot, (next.map (doing slot call)).sum = 0) (slot : ℕ) :
    inFlight (f.after id k call rest (.only s' next)) slot = inFlight f slot := by
  have hturn := inFlight_turn hk hcounted h slot
  rw [hi, hnext] at hturn
  exact hturn

theorem doingCounts_same (h : Sound f) (hf : DoingCounts f) (hi : ∀ slot, doing slot call i = 0)
    (hnext : ∀ slot, (next.map (doing slot call)).sum = 0)
    (hsame : Changes SameDoing f.shared.m_stats s'.m_stats) :
    DoingCounts (f.after id k call rest (.only s' next)) := by
  intro slot x' hx'
  obtain ⟨x, hx, hdoing⟩ := hsame.old hx'
  rw [inFlight_turn_eq hk hcounted h hi hnext, hdoing]
  exact hf slot x hx

end Turn

theorem keepsDoing_iff (hk : look f.threads k = some ⟨call, i :: rest⟩) :
    KeepsDoing f (.turn k result) ↔
      (∀ now t n, i = .clearNext now t n → t ≤ now → n < f.shared.m_stats.length →
        inFlight f (f.shared.slot t) = 0) ∧
      ∀ slot ts, i = .incDoing slot ts → ∀ x, look f.shared.m_stats slot = some x →
        x.m_doing.toNat + 1 < 2 ^ 32 := by
  have hhead : (f.code k).head? = some i := by
    rw [Threads.code_of_look hk]
    rfl
  simp only [KeepsDoing, hhead, Option.some.injEq]

theorem doingCounts_cleared {now t : UInt32}
    (hk : look f.threads k = some ⟨call, .clearNext now t n :: rest⟩) (ht : t ≤ now)
    (hn : n < f.shared.m_stats.length) (h : Sound f) (hf : DoingCounts f) :
    DoingCounts (f.after id k call rest (.only (f.shared.set (f.shared.slot t) .clear)
        [.clearNext now (t + 1) (n + 1)])) ↔ inFlight f (f.shared.slot t) = 0 := by
  have hsame := inFlight_turn_eq hk (.cleared ht hn) h (fun _ => rfl) (fun _ => rfl)
  constructor
  · intro hcounts
    obtain ⟨x, hx⟩ : ∃ x, look f.shared.m_stats (f.shared.slot t) = some x :=
      ⟨_, List.getElem?_eq_getElem (Nat.mod_lt _ h.slots)⟩
    have hclear := hcounts (f.shared.slot t) x.clear (by
      show look (f.shared.m_stats.modify _ _) _ = _
      rw [look_modify, if_pos rfl, hx]
      rfl)
    rw [hsame] at hclear
    exact hclear.symm
  · intro hzero slot x hx
    change look (f.shared.m_stats.modify _ _) _ = _ at hx
    rw [look_modify] at hx
    rw [hsame]
    split at hx
    · next heq =>
      obtain ⟨y, -, rfl⟩ := Option.map_eq_some_iff.mp hx
      rw [← heq, hzero]
      rfl
    · exact hf slot x hx

theorem doingCounts_came {slot : ℕ} {ts : UInt64}
    (hk : look f.threads k = some ⟨call, .incDoing slot ts :: rest⟩) (h : Sound f)
    (hf : DoingCounts f) :
    DoingCounts (f.after id k call rest (.only (f.shared.set slot (.incDoing 1))
        [.incTotal slot, .request slot ts, .decDoing slot])) ↔
      ∀ x, look f.shared.m_stats slot = some x → x.m_doing.toNat + 1 < 2 ^ 32 := by
  have hturn := inFlight_turn hk (.came slot ts) h
  have hone : ∀ n, ([.incTotal slot, .request slot ts, .decDoing slot].map (doing n call)).sum =
      if slot = n then 1 else 0 := by
    intro n
    simp [doing]
  have hnone : ∀ n, doing n call (.incDoing slot ts) = 0 := fun _ => rfl
  simp only [hone, hnone, Nat.add_zero] at hturn
  have hadd : ∀ x : UInt32, (x + 1).toNat = (x.toNat + 1) % 2 ^ 32 := fun x => UInt32.toNat_add x 1
  constructor
  · intro hcounts x hx
    have hcame := hcounts slot (x.incDoing 1) (by
      show look (f.shared.m_stats.modify _ _) _ = _
      rw [look_modify, if_pos rfl, hx]
      rfl)
    rw [hturn, if_pos rfl, ← hf slot x hx] at hcame
    change (x.m_doing + 1).toNat = _ at hcame
    rw [hadd] at hcame
    omega
  · intro hmax m x hx
    change look (f.shared.m_stats.modify _ _) _ = _ at hx
    rw [look_modify] at hx
    rw [hturn]
    split at hx
    · next heq =>
      obtain ⟨y, hy, rfl⟩ := Option.map_eq_some_iff.mp hx
      show (y.m_doing + 1).toNat = _
      subst heq
      rw [if_pos rfl, ← hf slot y hy, hadd, Nat.mod_eq_of_lt (hmax y hy)]
    · next hne =>
      rw [if_neg hne]
      exact hf m x hx

theorem doingCounts_went {slot : ℕ} (hk : look f.threads k = some ⟨call, .decDoing slot :: rest⟩)
    (h : Sound f) (hf : DoingCounts f) :
    DoingCounts (f.after id k call rest (.only (f.shared.set slot (.decDoing 1)) [])) := by
  have hturn := inFlight_turn hk (.went slot) h
  have hone : ∀ n, doing n call (.decDoing slot) = if slot = n then 1 else 0 := fun _ => rfl
  simp only [hone, List.map_nil, List.sum_nil, Nat.add_zero] at hturn
  intro m x hx
  change look (f.shared.m_stats.modify _ _) _ = _ at hx
  rw [look_modify] at hx
  have hm := hturn m
  split at hx
  · next heq =>
    obtain ⟨y, hy, rfl⟩ := Option.map_eq_some_iff.mp hx
    subst heq
    rw [if_pos rfl, ← hf slot y hy] at hm
    have hpos : 1 ≤ y.m_doing := by
      rw [UInt32.le_iff_toNat_le]
      show 1 ≤ y.m_doing.toNat
      omega
    show (y.m_doing - 1).toNat = _
    rw [UInt32.toNat_sub_of_le _ _ hpos]
    show y.m_doing.toNat - 1 = _
    omega
  · next hne =>
    rw [if_neg hne] at hm
    rw [hf m x hx]
    omega

/-- A turn keeps the counters right exactly when it keeps to the condition. -/
theorem doingCounts_turn {s' : ItemStats} {next : List Instr}
    (hk : look f.threads k = some ⟨call, i :: rest⟩) (hcounted : Counted f.shared i s' next)
    (h : Sound f) (hf : DoingCounts f) :
    DoingCounts (f.after id k call rest (.only s' next)) ↔ KeepsDoing f (.turn k result) := by
  rw [keepsDoing_iff hk]
  cases hcounted with
  | began =>
    refine ⟨fun _ => ⟨by simp, by simp⟩, fun _ => ?_⟩
    exact doingCounts_same hk .began h hf (fun _ => rfl) (fun _ => rfl) (.refl SameDoing.refl _)
  | other hi hsame hnext hclear =>
    have hzero : ∀ slot, (next.map (doing slot call)).sum = 0 := by
      intro slot
      refine List.sum_eq_zero fun n hn => ?_
      obtain ⟨j, hj, rfl⟩ := List.mem_map.mp hn
      exact doing_plain (hnext j hj) slot
    refine ⟨fun _ => ⟨?_, ?_⟩, fun _ => ?_⟩
    · exact fun now t n heq ht hn => absurd ⟨ht, hn⟩ (hclear now t n heq)
    · rintro slot ts rfl
      cases hi
    · exact doingCounts_same hk (.other hi hsame hnext hclear) h hf (doing_plain hi) hzero hsame
  | cleared ht hn =>
    rw [doingCounts_cleared hk ht hn h hf]
    refine ⟨fun hzero => ⟨?_, by simp⟩, fun hkeeps => hkeeps.1 _ _ _ rfl ht hn⟩
    intro now t n heq _ _
    cases heq
    exact hzero
  | came slot ts =>
    rw [doingCounts_came hk h hf]
    refine ⟨fun hmax => ⟨by simp, ?_⟩, fun hkeeps => hkeeps.2 slot ts rfl⟩
    intro slot ts heq
    cases heq
    exact hmax
  | went slot => exact ⟨fun _ => ⟨by simp, by simp⟩, fun _ => doingCounts_went hk h hf⟩

theorem doingCounts_start (hf : DoingCounts f) (hi : ∀ slot, i ≠ .decDoing slot) :
    DoingCounts (f.start f.shared call [i]) := by
  intro slot x hx
  have hnone : inFlight (f.start f.shared call [i]) slot = inFlight f slot := by
    simp [inFlight, Threads.start, (hi slot).symm]
  rw [hnone]
  exact hf slot x hx

theorem step_doingCounts {f' : Calls} {m : Move} (h : Sound f) (hf : DoingCounts f)
    (hstep : step f m = .ok f') : Sound f' ∧ (DoingCounts f' ↔ KeepsDoing f m) := by
  cases m with
  | tick clock =>
    simp only [step] at hstep
    split at hstep
    · cases hstep
      exact ⟨⟨h.slots, h.fits⟩, fun _ => trivial, fun _ => hf⟩
    · cases hstep
  | request =>
    cases hstep
    exact ⟨h.start trivial, fun _ => trivial, fun _ => doingCounts_start hf (by simp)⟩
  | getWeight =>
    cases hstep
    exact ⟨h.start trivial, fun _ => trivial, fun _ => doingCounts_start hf (by simp)⟩
  | turn k result =>
    obtain ⟨call, i, rest, t, hran, rfl⟩ := Threads.run_ran hstep
    obtain ⟨s', next, rfl, hcounted⟩ := exec_counted hran.exec_eq
    exact ⟨h.turn hran.look_eq hcounted, doingCounts_turn hran.look_eq hcounted h hf⟩

theorem notBelowZero (hf : DoingCounts f) (m : Move) : NotBelowZero f m := by
  cases m with
  | turn k result =>
    intro slot hhead x hx
    obtain ⟨u, hu, hmem⟩ := Threads.look_of_mem_code (List.mem_of_mem_head? hhead)
    rw [hf slot x hx]
    exact List.countP_pos_iff.mpr ⟨u, List.mem_of_getElem? hu, List.contains_iff_mem.mpr hmem⟩
  | _ => trivial

/-- Over every run of requests that may last as long as they like. -/
theorem doing_counts_iff (clock : UInt64) (ms : List Move) :
    Along step DoingCounts (init clock) ms ∧ Each step NotBelowZero (init clock) ms ↔
      Each step KeepsDoing (init clock) ms := by
  have hiff : Along step DoingCounts (init clock) ms ↔ Each step KeepsDoing (init clock) ms := by
    apply along_iff_each Sound DoingCounts (fun _ _ => True) KeepsDoing
    · exact fun f m f' h hf _ hstep => step_doingCounts h hf hstep
    · exact .init clock
    · intro slot x hx
      have hmem := List.eq_of_mem_replicate (List.mem_of_getElem? hx)
      rw [hmem]
      rfl
    · exact each_true ms _
  rw [← hiff]
  exact ⟨And.left, fun h => ⟨h, h.each_of fun f m hf => notBelowZero hf m⟩⟩

/-- A request of second 10 is in flight when one of second 15 uses its slot again, and both
end. -/
def outlastsRing : List Move :=
  [.request] ++ List.replicate 12 (.turn 0 0) ++ [.tick 15000, .request] ++
    List.replicate 11 (.turn 1 0) ++ List.replicate 4 (.turn 0 0) ++ List.replicate 5 (.turn 1 0)

/-- No request is in flight, and the counter of the slot is `2 ^ 32 - 1`. -/
theorem doing_cleared : ¬ ∀ ms : List Move,
    Along step DoingCounts (init 10000) ms ∧ Each step NotBelowZero (init 10000) ms := by
  intro hall
  have hlast := (hall outlastsRing).1.last rfl
  have hdoing : (0 - 1 : UInt32).toNat = 0 := hlast 0 _ rfl
  exact absurd hdoing (by decide)

end ItemStats

end Sylar
