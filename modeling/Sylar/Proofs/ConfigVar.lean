import Sylar.Lib.Changes
import Sylar.Lib.Partial
import Sylar.Spec.ConfigVar

/-! What the listeners of a variable are told is what becomes of its value exactly if no call begins
to tell them while another has told them, or begun to, and has not set the value. -/

namespace Sylar

open Lib

namespace ConfigVar

variable {T : Type}

def Shared.seen (s : Shared T) (key : ℕ) : List (T × T) :=
  (s.called.filter fun c => c.1 = key).map Prod.snd

def Quiet (f : Calls T) : Prop := ∀ u ∈ f.threads, u.code = []

instance (f : Calls T) : Decidable (Quiet f) := inferInstanceAs (Decidable (∀ u ∈ f.threads, u.code = []))

/-- Each listener was told of a chain of changes, the last one to the value there is. -/
def Followed (f : Calls T) : Prop :=
  ∀ key ∈ f.shared.m_cbs.keys, Linked (f.shared.seen key) ∧
    ∀ p, (f.shared.seen key).getLast? = some p → p.2 = f.shared.m_val

def Waits (code : List Instr) : Prop := code = [] ∨ code = [.change]

/-- A call that is about to tell the listeners finds no other that has begun and not set its value. -/
def Alone (f : Calls T) : Move T → Prop
  | .setValue _ => True
  | .turn k => ∀ v rest, look f.threads k = some ⟨v, .change :: rest⟩ → v ≠ f.shared.m_val →
      ∀ j u, j ≠ k → look f.threads j = some u → Waits u.code

/-- The calls of the listeners that are left, and what comes after them. -/
def telling (keys : List ℕ) : List Instr := keys.map .callListener ++ [.unlock, .assign]

section Told

variable {s : Shared T} {v : T} {key : ℕ}

theorem seen_call (s : Shared T) (v : T) (key key' : ℕ) :
    { s with called := s.called ++ [(key, s.m_val, v)] }.seen key' =
      if key = key' then s.seen key' ++ [(s.m_val, v)] else s.seen key' := by
  rw [Shared.seen, List.filter_append, List.map_append]
  by_cases h : key = key'
  · rw [if_pos h, List.filter_singleton]
    simp [h, Shared.seen]
  · rw [if_neg h, List.filter_singleton]
    simp [h, Shared.seen]

theorem not_waits_telling (keys : List ℕ) : ¬ Waits (telling keys) := by
  cases keys with
  | nil => rintro (h | h) <;> cases h
  | cons key keys => rintro (h | h) <;> cases h

theorem not_waits_assign : ¬ Waits [.assign] := by rintro (h | h) <;> cases h

end Told

/-- The listeners `pre` have been told of the value `v` of call `k`, and the others have not. -/
structure Busy (m₀ : T) (f : Calls T) (k : ℕ) (v : T) (pre rest : List ℕ) : Prop where
  keys : f.shared.m_cbs.keys = pre ++ rest
  code : look f.threads k = some ⟨v, telling rest⟩ ∨ rest = [] ∧ look f.threads k = some ⟨v, [.assign]⟩
  others : ∀ j u, j ≠ k → look f.threads j = some u → Waits u.code
  value : v ≠ f.shared.m_val
  told : ∀ key ∈ pre, Leads m₀ (f.shared.seen key) v ∧ f.shared.seen key ≠ []
  untold : ∀ key ∈ rest, Leads m₀ (f.shared.seen key) f.shared.m_val

/-- No call has begun to tell the listeners and not set its value. -/
structure Idle (m₀ : T) (f : Calls T) : Prop where
  waits : ∀ j u, look f.threads j = some u → Waits u.code
  told : ∀ key ∈ f.shared.m_cbs.keys, Leads m₀ (f.shared.seen key) f.shared.m_val

def OneByOne (m₀ : T) (f : Calls T) : Prop := Idle m₀ f ∨ ∃ k v pre rest, Busy m₀ f k v pre rest

section Step

variable {m₀ : T} {f f' : Calls T}

theorem OneByOne.setValue (h : OneByOne m₀ f) (v : T) : OneByOne m₀ (f.start f.shared v [.change]) := by
  rcases h with ⟨hwaits, htold⟩ | ⟨k, w, pre, rest, hb⟩
  · refine .inl ⟨fun j u hu => ?_, htold⟩
    rcases Threads.look_start_cases hu with ⟨-, rfl⟩ | hold
    · exact .inr rfl
    · exact hwaits j u hold
  · refine .inr ⟨k, w, pre, rest, hb.keys, ?_, fun j u hj hu => ?_, hb.value, hb.told, hb.untold⟩
    · exact hb.code.imp (Threads.look_start_old _ _ _) (And.imp_right (Threads.look_start_old _ _ _))
    · rcases Threads.look_start_cases hu with ⟨-, rfl⟩ | hold
      · exact .inr rfl
      · exact hb.others j u hj hold

theorem waits_cons {i : Instr} {rest : List Instr} (h : Waits (i :: rest)) : i = .change ∧ rest = [] := by
  rcases h with h | h
  · cases h
  · exact ⟨(List.cons.inj h).1, (List.cons.inj h).2⟩

theorem OneByOne.followed (h : OneByOne m₀ f) (hquiet : Quiet f) : Followed f := by
  rcases h with h | ⟨k, v, pre, rest, h⟩
  · exact fun key hkey => ⟨(h.told key hkey).linked, fun p hp => (h.told key hkey).last hp⟩
  · rcases h.code with hcode | ⟨-, hcode⟩
    · exact absurd (.inl (hquiet _ (List.mem_of_getElem? hcode))) (not_waits_telling rest)
    · exact absurd (.inl (hquiet _ (List.mem_of_getElem? hcode))) not_waits_assign

theorem Busy.not_mem {k key : ℕ} {v : T} {pre rest : List ℕ} (h : Busy m₀ f k v pre (key :: rest)) :
    key ∉ pre ∧ key ∉ rest := by
  have hsorted := h.keys ▸ f.shared.m_cbs.sorted
  have hnodup : (pre ++ key :: rest).Nodup := hsorted.imp fun hlt => hlt.ne
  rw [List.nodup_append] at hnodup
  exact ⟨fun hmem => hnodup.2.2 key hmem key List.mem_cons_self rfl,
    (List.nodup_cons.mp hnodup.2.1).1⟩

theorem Busy.told_call {k key : ℕ} {v : T} {pre rest : List ℕ}
    (h : Busy m₀ f k v pre (key :: rest)) :
    let s := { f.shared with called := f.shared.called ++ [(key, f.shared.m_val, v)] }
    (∀ key' ∈ pre ++ [key], Leads m₀ (s.seen key') v ∧ s.seen key' ≠ []) ∧
      ∀ key' ∈ rest, Leads m₀ (s.seen key') f.shared.m_val := by
  intro s
  have hseen := fun key' => seen_call f.shared v key key'
  refine ⟨fun key' hkey' => ?_, fun key' hkey' => ?_⟩
  · rw [hseen]
    rcases List.mem_append.mp hkey' with hmem | hmem
    · rw [if_neg (by rintro rfl; exact h.not_mem.1 hmem)]
      exact h.told key' hmem
    · obtain rfl := List.mem_singleton.mp hmem
      rw [if_pos rfl]
      exact ⟨(h.untold key' List.mem_cons_self).concat v,
        List.append_ne_nil_of_right_ne_nil _ (List.cons_ne_nil _ _)⟩
  · rw [hseen, if_neg (by rintro rfl; exact h.not_mem.2 hkey')]
    exact h.untold key' (List.mem_cons_of_mem key hkey')

variable [DecidableEq T]

theorem turn_cases {k : ℕ} (hs : step f (.turn k) = .ok f') :
    ∃ v i rest s' next, look f.threads k = some ⟨v, i :: rest⟩ ∧
      exec f.shared k v i () = .ok (.only s' next) ∧
      f' = f.after id k v rest (.only s' next) := by
  obtain ⟨v, i, rest, t, ⟨hk, hexec⟩, rfl⟩ := Threads.run_ran hs
  have honly : ∃ s' next, t = .only s' next := by
    cases i with
    | change =>
      simp only [exec] at hexec
      split at hexec <;> exact ⟨_, _, (Except.ok.inj hexec).symm⟩
    | assign =>
      simp only [exec] at hexec
      split at hexec
      · exact ⟨_, _, (Except.ok.inj hexec).symm⟩
      · cases hexec
    | _ => exact ⟨_, _, (Except.ok.inj hexec).symm⟩
  obtain ⟨s', next, rfl⟩ := honly
  exact ⟨v, i, rest, s', next, hk, hexec, rfl⟩

theorem Idle.turn (h : Idle m₀ f) {k : ℕ} (hs : step f (.turn k) = .ok f') : OneByOne m₀ f' := by
  obtain ⟨v, i, rest, s', next, hk, hexec, rfl⟩ := turn_cases hs
  obtain ⟨rfl, rfl⟩ := waits_cons (h.waits k _ hk)
  have hlook := fun j => Threads.look_after_only id s' next hk j
  simp only [exec] at hexec
  split at hexec
  · cases hexec
    refine .inl ⟨?_, h.told⟩
    apply Threads.forall_after_only (P := fun _ u => Waits u.code) id hk
    · exact .inl rfl
    · exact fun j u _ hu => h.waits j u hu
  · next hne =>
    cases hexec
    refine .inr ⟨k, v, [], f.shared.m_cbs.keys, rfl, .inl ?_, fun j u hj hu => ?_, hne, ?_, h.told⟩
    · rw [hlook, if_pos rfl, List.append_nil]
      rfl
    · rw [hlook, if_neg hj] at hu
      exact h.waits j u hu
    · exact fun key hkey => absurd hkey List.not_mem_nil

theorem Busy.turn {k : ℕ} {v : T} {pre rest : List ℕ} (h : Busy m₀ f k v pre rest)
    (hs : step f (.turn k) = .ok f') : OneByOne m₀ f' := by
  obtain ⟨v', i, code, s', next, hk, hexec, rfl⟩ := turn_cases hs
  have hlook := fun j => Threads.look_after_only id s' next hk j
  have hothers : ∀ j u, j ≠ k → look (f.after id k v' code (.only s' next)).threads j = some u →
      Waits u.code := by
    intro j u hj hu
    rw [hlook, if_neg hj] at hu
    exact h.others j u hj hu
  rcases h.code with hcode | ⟨rfl, hcode⟩
  · cases rest with
    | nil =>
      cases hk.symm.trans hcode
      cases hexec
      refine .inr ⟨k, v, pre, [], h.keys, .inr ⟨rfl, ?_⟩, hothers, h.value, h.told, h.untold⟩
      rw [hlook, if_pos rfl]
      rfl
    | cons key rest =>
      cases hk.symm.trans hcode
      cases hexec
      obtain ⟨htold, huntold⟩ := h.told_call
      refine .inr ⟨k, v, pre ++ [key], rest, ?_, .inl ?_, hothers, h.value, htold, huntold⟩
      · rw [List.append_assoc]
        exact h.keys
      · rw [hlook, if_pos rfl]
        rfl
  · cases hk.symm.trans hcode
    simp only [exec] at hexec
    split at hexec
    · cases hexec
      refine .inl ⟨?_, fun key hkey => ?_⟩
      · apply Threads.forall_after_only (P := fun _ u => Waits u.code) id hk
        · exact .inl rfl
        · exact h.others
      · change key ∈ f.shared.m_cbs.keys at hkey
        rw [h.keys, List.append_nil] at hkey
        exact (h.told key hkey).1
    · cases hexec

theorem OneByOne.step (h : OneByOne m₀ f) {m : Move T} (halone : Alone f m) (hs : step f m = .ok f') :
    OneByOne m₀ f' := by
  cases m with
  | setValue v =>
    cases hs
    exact h.setValue v
  | turn k =>
    rcases h with h | ⟨k', v', pre, rest', h⟩
    · exact h.turn hs
    · by_cases hkk : k = k'
      · subst hkk
        exact h.turn hs
      · obtain ⟨v, i, rest, s', next, hk, hexec, rfl⟩ := turn_cases hs
        obtain ⟨rfl, rfl⟩ := waits_cons (h.others k _ hkk hk)
        have hlook := fun j => Threads.look_after_only id s' next hk j
        obtain ⟨u, hu, hnot⟩ : ∃ u, look f.threads k' = some u ∧ ¬ Waits u.code := by
          rcases h.code with hcode | ⟨-, hcode⟩
          · exact ⟨_, hcode, not_waits_telling rest'⟩
          · exact ⟨_, hcode, not_waits_assign⟩
        have hsame : v = f.shared.m_val := by
          by_contra hne
          exact hnot (halone v [] hk hne k' u (Ne.symm hkk) hu)
        simp only [exec, if_pos hsame] at hexec
        cases hexec
        refine .inr ⟨k', v', pre, rest', h.keys, ?_, ?_, h.value, h.told, h.untold⟩
        · rw [hlook, if_neg (Ne.symm hkk)]
          exact h.code
        · intro j u hj hu
          refine Threads.forall_after_only (P := fun j u => j ≠ k' → Waits u.code) id hk ?_ ?_ j u hu hj
          · exact fun _ => .inl rfl
          · exact fun j u _ hu hj => h.others j u hj hu

end Step

def holding : T → Instr → ℕ
  | _, .unlock => 1
  | _, _ => 0

/-- A call that tells the listeners has the lock, and another value than the variable. -/
structure Locked (f : Calls T) : Prop where
  readers : f.shared.readers = Threads.total holding f.threads
  shape : ∀ j u, look f.threads j = some u →
    Waits u.code ∨ u.code = [.assign] ∨ ∃ keys, u.code = telling keys ∧ u.role ≠ f.shared.m_val

/-- The listener has been told, or will be, of two changes from one value. -/
inductive Torn (f : Calls T) (key : ℕ) : Prop where
  | broken (h : ¬ Linked (f.shared.seen key))
  | both {j k : ℕ} {u u' : Thread T Instr} (hjk : j ≠ k) (hj : look f.threads j = some u)
      (hk : look f.threads k = some u') (hu : .callListener key ∈ u.code)
      (hu' : .callListener key ∈ u'.code)
  | left {j : ℕ} {u : Thread T Instr} {p : T × T} (hj : look f.threads j = some u)
      (hu : .callListener key ∈ u.code) (hp : (f.shared.seen key).getLast? = some p)
      (hne : p.2 ≠ f.shared.m_val)

section Torn

variable {f f' : Calls T}

theorem mem_telling {key : ℕ} {keys : List ℕ} : .callListener key ∈ telling keys ↔ key ∈ keys := by
  simp [telling]

theorem unlock_mem_telling (keys : List ℕ) : .unlock ∈ telling keys := by simp [telling]

theorem Locked.telling (h : Locked f) {j : ℕ} {u : Thread T Instr} (hu : look f.threads j = some u) {key : ℕ}
    (hkey : .callListener key ∈ u.code) : ∃ keys, u.code = telling keys ∧ u.role ≠ f.shared.m_val := by
  rcases h.shape j u hu with (hcode | hcode) | hcode | hcode
  · rw [hcode] at hkey
    exact absurd hkey List.not_mem_nil
  · rw [hcode] at hkey
    cases List.mem_singleton.mp hkey
  · rw [hcode] at hkey
    cases List.mem_singleton.mp hkey
  · exact hcode

theorem Locked.readers_pos (h : Locked f) {j : ℕ} {u : Thread T Instr} (hu : look f.threads j = some u)
    (hmem : .unlock ∈ u.code) : 0 < f.shared.readers := by
  rw [h.readers]
  have hle : (u.code.map (holding u.role)).sum ≤ Threads.total holding f.threads :=
    le_sum_map (fun u : Thread T Instr => (u.code.map (holding u.role)).sum) hu
  have hone : holding u.role .unlock ≤ (u.code.map (holding u.role)).sum :=
    List.single_le_sum (fun _ _ => Nat.zero_le _) _ (List.mem_map_of_mem hmem)
  exact hone.trans hle

theorem sum_telling (v : T) (keys : List ℕ) : ((telling keys).map (holding v)).sum = 1 := by
  rw [ConfigVar.telling, List.map_append, List.sum_append, List.map_map,
    List.sum_eq_zero (l := List.map _ keys) (by simp [holding])]
  rfl

/-- What a call does that has its turn, and what it has to do after it. -/
theorem Locked.own (h : Locked f) {k : ℕ} {v : T} {i : Instr} {rest : List Instr}
    (hk : look f.threads k = some ⟨v, i :: rest⟩) :
    i = .change ∧ rest = [] ∨ i = .assign ∧ rest = [] ∨
      v ≠ f.shared.m_val ∧ (i = .unlock ∧ rest = [.assign] ∨
        ∃ key keys, i = .callListener key ∧ rest = ConfigVar.telling keys) := by
  rcases h.shape k _ hk with hcode | hcode | ⟨keys, hcode, hne⟩
  · exact .inl (waits_cons hcode)
  · exact .inr (.inl ⟨(List.cons.inj hcode).1, (List.cons.inj hcode).2⟩)
  · cases keys with
    | nil => exact .inr (.inr ⟨hne, .inl ⟨(List.cons.inj hcode).1, (List.cons.inj hcode).2⟩⟩)
    | cons key keys =>
      exact .inr (.inr ⟨hne, .inr ⟨key, keys, (List.cons.inj hcode).1, (List.cons.inj hcode).2⟩⟩)

theorem Locked.setValue (h : Locked f) (v : T) : Locked (f.start f.shared v [.change]) := by
  refine ⟨?_, fun j u hu => ?_⟩
  · rw [Threads.total_start]
    exact h.readers
  · rcases Threads.look_start_cases hu with ⟨-, rfl⟩ | hold
    · exact .inl (.inr rfl)
    · exact h.shape j u hold

theorem Torn.not_linked {key : ℕ} (h : Torn f key) (hquiet : Quiet f) : ¬ Linked (f.shared.seen key) := by
  cases h with
  | broken hb => exact hb
  | both _ hj _ hu _ => exact absurd (hquiet _ (List.mem_of_getElem? hj) ▸ hu) List.not_mem_nil
  | left hj hu _ _ => exact absurd (hquiet _ (List.mem_of_getElem? hj) ▸ hu) List.not_mem_nil

variable [DecidableEq T]

theorem Locked.turn (h : Locked f) {k : ℕ} (hs : step f (.turn k) = .ok f') : Locked f' := by
  obtain ⟨v, i, rest, s', next, hk, hexec, rfl⟩ := turn_cases hs
  have htotal : Threads.total holding (f.after id k v rest (.only s' next)).threads + holding v i =
      Threads.total holding f.threads + (next.map (holding v)).sum := Threads.total_after holding hk rfl
  have hreaders := h.readers
  have hothers : s'.m_val = f.shared.m_val → ∀ j u, j ≠ k → look f.threads j = some u →
      Waits u.code ∨ u.code = [.assign] ∨ ∃ keys, u.code = ConfigVar.telling keys ∧ u.role ≠ s'.m_val := by
    intro hval j u _ hu
    rw [hval]
    exact h.shape j u hu
  have hshape : (Waits (next ++ rest) ∨ next ++ rest = [.assign] ∨
      ∃ keys, next ++ rest = ConfigVar.telling keys ∧ v ≠ s'.m_val) →
      (∀ j u, j ≠ k → look f.threads j = some u →
        Waits u.code ∨ u.code = [.assign] ∨ ∃ keys, u.code = ConfigVar.telling keys ∧ u.role ≠ s'.m_val) →
      ∀ j u, look (f.after id k v rest (.only s' next)).threads j = some u →
        Waits u.code ∨ u.code = [.assign] ∨ ∃ keys, u.code = ConfigVar.telling keys ∧ u.role ≠ s'.m_val :=
    Threads.forall_after_only (P := fun _ u => Waits u.code ∨ u.code = [.assign] ∨
      ∃ keys, u.code = ConfigVar.telling keys ∧ u.role ≠ s'.m_val) id hk
  rcases h.own hk with ⟨rfl, rfl⟩ | ⟨rfl, rfl⟩ | ⟨hne, ⟨rfl, rfl⟩ | ⟨key, keys, rfl, rfl⟩⟩
  · simp only [exec] at hexec
    split at hexec
    · cases hexec
      exact ⟨hreaders.trans htotal.symm, hshape (.inl (.inl rfl)) (hothers rfl)⟩
    · next hne =>
      cases hexec
      refine ⟨?_, hshape (.inr (.inr ⟨_, List.append_nil _, hne⟩)) (hothers rfl)⟩
      change Threads.total holding _ + 0 = Threads.total holding f.threads +
        ((ConfigVar.telling f.shared.m_cbs.keys).map (holding v)).sum at htotal
      rw [sum_telling] at htotal
      change f.shared.readers + 1 = _
      omega
  · simp only [exec] at hexec
    split at hexec
    · next hzero =>
      cases hexec
      refine ⟨hreaders.trans htotal.symm, hshape (.inl (.inl rfl)) fun j u _ hu => ?_⟩
      refine (h.shape j u hu).imp_right (Or.imp_right ?_)
      rintro ⟨keys, hcode, -⟩
      -- nobody holds the lock
      have hpos := h.readers_pos hu (hcode ▸ unlock_mem_telling keys)
      omega
    · cases hexec
  · cases hexec
    refine ⟨?_, hshape (.inr (.inl rfl)) (hothers rfl)⟩
    change Threads.total holding _ + 1 = Threads.total holding f.threads + 0 at htotal
    change f.shared.readers - 1 = _
    omega
  · cases hexec
    exact ⟨hreaders.trans htotal.symm, hshape (.inr (.inr ⟨keys, rfl, hne⟩)) (hothers rfl)⟩

theorem Torn.turn (hl : Locked f) {key : ℕ} (h : Torn f key) {k : ℕ} (hs : step f (.turn k) = .ok f') :
    Torn f' key := by
  obtain ⟨v, i, rest, s', next, hk, hexec, rfl⟩ := turn_cases hs
  have hlook := fun j => Threads.look_after_only id s' next hk j
  -- a call that keeps what it has to tell
  have hkeep : (.callListener key ∈ i :: rest → .callListener key ∈ next ++ rest) →
      ∀ {j u}, look f.threads j = some u → .callListener key ∈ u.code →
        ∃ u', look (f.after id k v rest (.only s' next)).threads j = some u' ∧
          .callListener key ∈ u'.code := by
    intro hown j u hu hmem
    by_cases hj : j = k
    · subst hj
      cases hk.symm.trans hu
      exact ⟨_, (hlook j).trans (if_pos rfl), hown hmem⟩
    · exact ⟨u, ((hlook j).trans (if_neg hj)).trans hu, hmem⟩
  have hsame : s'.seen key = f.shared.seen key → s'.m_val = f.shared.m_val →
      (.callListener key ∈ i :: rest → .callListener key ∈ next ++ rest) →
      Torn (f.after id k v rest (.only s' next)) key := by
    intro hseen hval hown
    cases h with
    | broken hb => exact .broken (hseen ▸ hb)
    | both hjk hj hk' hu hu' =>
      obtain ⟨u₁, hj₁, hu₁⟩ := hkeep hown hj hu
      obtain ⟨u₂, hj₂, hu₂⟩ := hkeep hown hk' hu'
      exact .both hjk hj₁ hj₂ hu₁ hu₂
    | left hj hu hp hne =>
      obtain ⟨u₁, hj₁, hu₁⟩ := hkeep hown hj hu
      exact .left hj₁ hu₁ (hseen ▸ hp) (hval ▸ hne)
  rcases hl.own hk with ⟨rfl, rfl⟩ | ⟨rfl, rfl⟩ | ⟨hne, ⟨rfl, rfl⟩ | ⟨key', keys, rfl, rfl⟩⟩
  · have hold : .callListener key ∉ [Instr.change] := by simp
    simp only [exec] at hexec
    split at hexec
    · cases hexec
      exact hsame rfl rfl fun hmem => absurd hmem hold
    · cases hexec
      exact hsame rfl rfl fun hmem => absurd hmem hold
  · simp only [exec] at hexec
    split at hexec
    · next hzero =>
      have hpos : ∀ {j u}, look f.threads j = some u → .callListener key ∉ u.code := by
        intro j u hu hmem
        obtain ⟨keys, hcode, -⟩ := hl.telling hu hmem
        have hpos := hl.readers_pos hu (hcode ▸ unlock_mem_telling keys)
        omega
      cases hexec
      cases h with
      | broken hb => exact .broken hb
      | both _ hj _ hu _ => exact absurd hu (hpos hj)
      | left hj hu _ _ => exact absurd hu (hpos hj)
    · cases hexec
  · cases hexec
    exact hsame rfl rfl fun hmem => by simp at hmem
  · cases hexec
    have hseen := seen_call f.shared v key' key
    by_cases hkey : key' = key
    · subst hkey
      rw [if_pos rfl] at hseen
      have hlast : ({ f.shared with
          called := f.shared.called ++ [(key', f.shared.m_val, v)] }.seen key').getLast? =
            some (f.shared.m_val, v) := by rw [hseen, List.getLast?_concat]
      cases h with
      | broken hb => exact .broken fun hlinked => hb (Linked.of_concat (hseen ▸ hlinked))
      | both hjk hj hk' hu hu' =>
        -- one of the two has told it and the other has not
        rename_i j₁ j₂ u₁ u₂
        by_cases hj₁ : j₁ = k
        · have hj₂ : j₂ ≠ k := fun heq => hjk (hj₁.trans heq.symm)
          exact .left (((hlook j₂).trans (if_neg hj₂)).trans hk') hu' hlast hne
        · exact .left (((hlook j₁).trans (if_neg hj₁)).trans hj) hu hlast hne
      | left hj hu hp hne' => exact .broken fun hlinked => hne' (Linked.old_eq (hseen ▸ hlinked) hp)
    · rw [if_neg hkey] at hseen
      refine hsame hseen rfl fun hmem => ?_
      rcases List.mem_cons.mp hmem with heq | hmem
      · exact absurd (Instr.callListener.inj heq).symm hkey
      · exact hmem

theorem Torn.step (hl : Locked f) {key : ℕ} (h : Torn f key) {m : Move T} (hs : step f m = .ok f') :
    Torn f' key := by
  cases m with
  | setValue v =>
    cases hs
    cases h with
    | broken hb => exact .broken hb
    | both hjk hj hk hu hu' =>
      exact .both hjk (Threads.look_start_old _ _ _ hj) (Threads.look_start_old _ _ _ hk) hu hu'
    | left hj hu hp hne => exact .left (Threads.look_start_old _ _ _ hj) hu hp hne
  | turn k => exact h.turn hl hs

theorem Locked.step (h : Locked f) {m : Move T} (hs : step f m = .ok f') : Locked f' := by
  cases m with
  | setValue v =>
    cases hs
    exact h.setValue v
  | turn k => exact h.turn hs

/-- A call that begins while another has begun tears every listener. -/
theorem OneByOne.torn {m₀ : T} (h : OneByOne m₀ f) {m : Move T} (hnot : ¬ Alone f m)
    (hs : ConfigVar.step f m = .ok f')
    {key : ℕ} (hkey : key ∈ f.shared.m_cbs.keys) : Torn f' key := by
  cases m with
  | setValue v => exact absurd trivial hnot
  | turn k =>
    simp only [Alone] at hnot
    push Not at hnot
    obtain ⟨v, rest, hk, hne, j, u, hj, hu, hbegun⟩ := hnot
    rcases h with h | ⟨j', w, pre, left, h⟩
    · exact absurd (h.waits j u hu) hbegun
    · obtain rfl : j = j' := by
        by_contra hjj
        exact hbegun (h.others j u hjj hu)
      obtain ⟨v', i, code, s', next, hk', hexec, rfl⟩ := turn_cases hs
      cases hk.symm.trans hk'
      have hlook := fun l => Threads.look_after_only id s' next hk l
      simp only [exec, if_neg hne] at hexec
      cases hexec
      have htold : .callListener key ∈ ConfigVar.telling f.shared.m_cbs.keys ++ rest :=
        List.mem_append_left _ (mem_telling.mpr hkey)
      have hnew := (hlook k).trans (if_pos rfl)
      have hold := (hlook j).trans (if_neg hj)
      rw [h.keys] at hkey
      rcases List.mem_append.mp hkey with hmem | hmem
      · obtain ⟨hleads, hne'⟩ := h.told key hmem
        have hlast := List.getLast?_eq_getLast_of_ne_nil hne'
        exact .left hnew htold hlast fun heq => h.value ((hleads.last hlast).symm.trans heq)
      · rcases h.code with hcode | ⟨rfl, -⟩
        · exact .both hj (hold.trans hcode) hnew (mem_telling.mpr hmem) htold
        · exact absurd hmem List.not_mem_nil

theorem keys_step {m : Move T} (hs : step f m = .ok f') : f'.shared.m_cbs = f.shared.m_cbs := by
  cases m with
  | setValue v =>
    cases hs
    rfl
  | turn k =>
    obtain ⟨v, i, rest, s', next, -, hexec, rfl⟩ := turn_cases hs
    change s'.m_cbs = _
    cases i with
    | change =>
      simp only [exec] at hexec
      split at hexec <;> cases hexec <;> rfl
    | assign =>
      simp only [exec] at hexec
      split at hexec
      · cases hexec
        rfl
      · cases hexec
    | _ =>
      cases hexec
      rfl

theorem run_followed {m₀ : T} (moves : List (Move T)) : ∀ {f : Calls T}, Locked f → OneByOne m₀ f →
    moves.foldlM step f = .ok f' → Quiet f' → f.shared.m_cbs.keys ≠ [] →
    (Followed f' ↔ Each step Alone f moves) := by
  induction moves with
  | nil =>
    intro f _ h hrun hquiet _
    obtain rfl := Except.ok.inj hrun
    exact iff_of_true (h.followed hquiet) trivial
  | cons m moves ih =>
    intro f hl h hrun hquiet hkeys
    obtain ⟨f₁, hs, hrun⟩ := ok_of_bind hrun
    have hkeys₁ := keys_step hs
    by_cases halone : Alone f m
    · rw [ih (hl.step hs) (h.step halone hs) hrun hquiet (by rw [hkeys₁]; exact hkeys)]
      refine ⟨fun heach f₂ hs₂ => ?_, fun heach => (heach f₁ hs).2⟩
      obtain rfl := Except.ok.inj (hs.symm.trans hs₂)
      exact ⟨halone, heach⟩
    · refine iff_of_false (fun hfollowed => ?_) fun heach => halone (heach f₁ hs).1
      obtain ⟨key, hkey⟩ := List.exists_mem_of_ne_nil _ hkeys
      have hend : Locked f' ∧ Torn f' key ∧ f'.shared.m_cbs = f.shared.m_cbs :=
        of_foldlM (I := fun f' => Locked f' ∧ Torn f' key ∧ f'.shared.m_cbs = f.shared.m_cbs)
          (fun _ _ _ hI hs => ⟨hI.1.step hs, hI.2.1.step hI.1 hs, (keys_step hs).trans hI.2.2⟩)
          ⟨hl.step hs, h.torn halone hs hkey, hkeys₁⟩ hrun
      exact hend.2.1.not_linked hquiet (hfollowed key (hend.2.2 ▸ hkey)).1

end Torn

/-- However the steps of the calls follow each other: when all have returned, the listeners have
followed the value exactly if each call began to tell them alone, or there are none. -/
theorem followed_iff_alone {T : Type} [DecidableEq T] (x : ConfigVar T) (moves : List (Move T)) (f : Calls T)
    (hrun : moves.foldlM step (init x) = .ok f) (hquiet : Quiet f) :
    Followed f ↔ x.m_cbs.keys = [] ∨ Each step Alone (init x) moves := by
  have hnone : ∀ (j : ℕ) (u : Thread T Instr), look (init x).threads j ≠ some u := nofun
  have hl : Locked (init x) := ⟨rfl, fun j u hu => absurd hu (hnone j u)⟩
  have hone : OneByOne x.m_val (init x) :=
    .inl ⟨fun j u hu => absurd hu (hnone j u), fun key _ => rfl⟩
  by_cases hkeys : x.m_cbs.keys = []
  · have hsame : f.shared.m_cbs = x.m_cbs :=
      of_foldlM (I := fun f => f.shared.m_cbs = x.m_cbs) (fun _ _ _ hI hs => (keys_step hs).trans hI) rfl hrun
    refine iff_of_true (fun key hkey => ?_) (.inl hkeys)
    rw [hsame, hkeys] at hkey
    exact absurd hkey List.not_mem_nil
  · rw [run_followed moves hl hone hrun hquiet hkeys]
    exact (or_iff_right hkeys).symm

def heard (m_val : ℕ) : ConfigVar ℕ := ⟨m_val, [1], List.pairwise_singleton _ 1⟩

theorem followed_iff_alone_twice :
    let moves := [.setValue 5, .setValue 7] ++ List.replicate 4 (.turn 0) ++ List.replicate 4 (.turn 1)
    ∃ f, moves.foldlM step (init (heard 0)) = .ok f ∧
      (Followed f ↔ (heard 0).m_cbs.keys = [] ∨ Each step Alone (init (heard 0)) moves) :=
  ⟨_, rfl, followed_iff_alone _ _ _ rfl (by decide)⟩

/-- The second call tells the listener of its value last and sets it first. -/
theorem not_followed_of_two : ¬ ∀ (x : ConfigVar ℕ) (moves : List (Move ℕ)) (f : Calls ℕ),
    moves.foldlM step (init x) = .ok f → Quiet f → Followed f := by
  intro hall
  have hfollowed := hall (heard 0) ([.setValue 5, .setValue 7] ++ List.replicate 3 (.turn 0) ++
    List.replicate 4 (.turn 1) ++ [.turn 0]) _ rfl (by decide)
  have hlast := (hfollowed 1 (List.mem_singleton_self 1)).2 (0, 7) rfl
  change 7 = 5 at hlast
  omega

end ConfigVar

end Sylar
