import Mathlib.Data.List.Basic

/-! Steps that may fail. A failed step has no next state, so the run ends there.
`Along` speaks of every state of a run and `Each` of every step it completes. -/

namespace Lib

variable {σ ω ε : Type*}

/-- A sequence that succeeds has succeeded in both of its parts. -/
theorem ok_of_bind {ε α β : Type} {x : Except ε α} {f : α → Except ε β} {b : β}
    (h : x >>= f = .ok b) : ∃ a, x = .ok a ∧ f a = .ok b := by
  cases x with
  | error e => exact absurd h (by rintro ⟨⟩)
  | ok a => exact ⟨a, rfl, h⟩

/-- One that fails has failed in its first part, or after it. -/
theorem error_of_bind {ε α β : Type} {x : Except ε α} {f : α → Except ε β} {e : ε}
    (h : x >>= f = .error e) : x = .error e ∨ ∃ a, x = .ok a ∧ f a = .error e := by
  cases x with
  | error e' =>
    cases h
    exact .inl rfl
  | ok a => exact .inr ⟨a, rfl, h⟩

def Along (step : σ → ω → Except ε σ) (P : σ → Prop) : σ → List ω → Prop
  | s, [] => P s
  | s, o :: os => P s ∧ ∀ s', step s o = .ok s' → Along step P s' os

def Each (step : σ → ω → Except ε σ) (C : σ → ω → Prop) : σ → List ω → Prop
  | _, [] => True
  | s, o :: os => ∀ s', step s o = .ok s' → C s o ∧ Each step C s' os

/-- `Each` for the steps that are tried, also one that fails. -/
def Tries (step : σ → ω → Except ε σ) (C : σ → ω → Prop) : σ → List ω → Prop
  | _, [] => True
  | s, o :: os => C s o ∧ ∀ s', step s o = .ok s' → Tries step C s' os

instance Along.decidable (step : σ → ω → Except ε σ) (P : σ → Prop) [DecidablePred P] :
    ∀ s os, Decidable (Along step P s os)
  | s, [] => inferInstanceAs (Decidable (P s))
  | s, o :: os =>
      match h : step s o with
      | .error _ => decidable_of_iff (P s)
          ⟨fun hs => ⟨hs, fun _ hs' => absurd (h.symm.trans hs') (by rintro ⟨⟩)⟩, And.left⟩
      | .ok s' =>
          have := Along.decidable step P s' os
          decidable_of_iff (P s ∧ Along step P s' os)
            ⟨fun hs => ⟨hs.1, fun _ ht => Except.ok.inj (h.symm.trans ht) ▸ hs.2⟩,
              fun hs => ⟨hs.1, hs.2 s' h⟩⟩

instance Each.decidable (step : σ → ω → Except ε σ) (C : σ → ω → Prop)
    [hC : ∀ s o, Decidable (C s o)] : ∀ s os, Decidable (Each step C s os)
  | _, [] => .isTrue trivial
  | s, o :: os =>
      match h : step s o with
      | .error _ => .isTrue fun _ hs' => absurd (h.symm.trans hs') (by rintro ⟨⟩)
      | .ok s' =>
          have := Each.decidable step C s' os
          decidable_of_iff (C s o ∧ Each step C s' os)
            ⟨fun hs _ ht => Except.ok.inj (h.symm.trans ht) ▸ hs, fun hs => hs s' h⟩

instance Tries.decidable (step : σ → ω → Except ε σ) (C : σ → ω → Prop)
    [hC : ∀ s o, Decidable (C s o)] : ∀ s os, Decidable (Tries step C s os)
  | _, [] => .isTrue trivial
  | s, o :: os =>
      match h : step s o with
      | .error _ => decidable_of_iff (C s o)
          ⟨fun hs => ⟨hs, fun _ hs' => absurd (h.symm.trans hs') (by rintro ⟨⟩)⟩, And.left⟩
      | .ok s' =>
          have := Tries.decidable step C s' os
          decidable_of_iff (C s o ∧ Tries step C s' os)
            ⟨fun hs => ⟨hs.1, fun _ ht => Except.ok.inj (h.symm.trans ht) ▸ hs.2⟩,
              fun hs => ⟨hs.1, hs.2 s' h⟩⟩

theorem each_true {step : σ → ω → Except ε σ} : ∀ (os : List ω) (s : σ),
    Each step (fun _ _ => True) s os
  | [], _ => trivial
  | _ :: os, _ => fun s' _ => ⟨trivial, each_true os s'⟩

theorem each_of_forall {step : σ → ω → Except ε σ} {permitted : ω → Prop} :
    ∀ {os : List ω} {s : σ}, (∀ o ∈ os, permitted o) → Each step (fun _ o => permitted o) s os
  | [], _, _ => trivial
  | o :: _, _, hos => fun _ _ =>
      ⟨hos o List.mem_cons_self, each_of_forall fun o' ho' => hos o' (List.mem_cons_of_mem o ho')⟩

theorem Each.and {step : σ → ω → Except ε σ} {C D : σ → ω → Prop} : ∀ {os : List ω} {s : σ},
    Each step C s os → Each step D s os → Each step (fun s o => C s o ∧ D s o) s os
  | [], _, _, _ => trivial
  | _ :: _, _, hC, hD => fun s' hs' =>
      ⟨⟨(hC s' hs').1, (hD s' hs').1⟩, (hC s' hs').2.and (hD s' hs').2⟩

theorem Each.mono {step : σ → ω → Except ε σ} {C D : σ → ω → Prop} (hCD : ∀ s o, C s o → D s o) :
    ∀ {os : List ω} {s : σ}, Each step C s os → Each step D s os
  | [], _, _ => trivial
  | _ :: _, _, h => fun s' hs' => ⟨hCD _ _ (h s' hs').1, Each.mono hCD (h s' hs').2⟩

theorem Along.head {step : σ → ω → Except ε σ} {P : σ → Prop} {s : σ} :
    ∀ {os : List ω}, Along step P s os → P s
  | [], h => h
  | _ :: _, h => h.1

theorem Along.last {step : σ → ω → Except ε σ} {P : σ → Prop} :
    ∀ {os : List ω} {s s' : σ}, Along step P s os → os.foldlM step s = .ok s' → P s'
  | [], _, _, h, hs => Except.ok.inj hs ▸ h
  | o :: os, s, s', h, hs => by
    rw [List.foldlM_cons] at hs
    cases hs₁ : step s o with
    | error e =>
      rw [hs₁] at hs
      exact absurd hs (by rintro ⟨⟩)
    | ok s₁ =>
      rw [hs₁] at hs
      exact (h.2 s₁ hs₁).last hs

/-- When a step from a good state leads to a good state exactly if it meets `C`,
a run stays good exactly if each of its steps meets `C`. -/
theorem along_iff_each {step : σ → ω → Except ε σ} (I P : σ → Prop) (ok C : σ → ω → Prop)
    (hstep : ∀ s o s', I s → P s → ok s o → step s o = .ok s' → I s' ∧ (P s' ↔ C s o)) :
    ∀ os s, I s → P s → Each step ok s os → (Along step P s os ↔ Each step C s os) := by
  intro os
  induction os with
  | nil => intro s _ hP _; exact ⟨fun _ => trivial, fun _ => hP⟩
  | cons o os ih =>
    intro s hI hP hok
    constructor
    · intro h s' hs'
      obtain ⟨ho, hos⟩ := hok s' hs'
      obtain ⟨hI', hiff⟩ := hstep s o s' hI hP ho hs'
      have hP' : P s' := (h.2 s' hs').head
      exact ⟨hiff.mp hP', (ih s' hI' hP' hos).mp (h.2 s' hs')⟩
    · intro h
      refine ⟨hP, fun s' hs' => ?_⟩
      obtain ⟨ho, hos⟩ := hok s' hs'
      obtain ⟨hI', hiff⟩ := hstep s o s' hI hP ho hs'
      have hP' : P s' := hiff.mpr (h s' hs').1
      exact (ih s' hI' hP' hos).mpr (h s' hs').2

/-- Two conditions that agree on the steps from good states. -/
theorem each_iff_each {step : σ → ω → Except ε σ} (I : σ → Prop) (C D : σ → ω → Prop)
    (hstep : ∀ s o s', I s → step s o = .ok s' → I s' ∧ (C s o ↔ D s o)) :
    ∀ os s, I s → (Each step C s os ↔ Each step D s os) := by
  intro os
  induction os with
  | nil => intro s _; exact Iff.rfl
  | cons o os ih =>
    intro s hI
    constructor
    · intro h s' hs'
      obtain ⟨hI', hiff⟩ := hstep s o s' hI hs'
      exact ⟨hiff.mp (h s' hs').1, (ih s' hI').mp (h s' hs').2⟩
    · intro h s' hs'
      obtain ⟨hI', hiff⟩ := hstep s o s' hI hs'
      exact ⟨hiff.mpr (h s' hs').1, (ih s' hI').mpr (h s' hs').2⟩

theorem foldlM_cons_ok {step : σ → ω → Except ε σ} {o : ω} {s s' : σ} (h : step s o = .ok s')
    (os : List ω) : (o :: os).foldlM step s = os.foldlM step s' := by
  rw [List.foldlM_cons, h]
  rfl

theorem foldlM_append_ok {step : σ → ω → Except ε σ} {os : List ω} {s s' : σ}
    (h : os.foldlM step s = .ok s') (os' : List ω) :
    (os ++ os').foldlM step s = os'.foldlM step s' := by
  rw [List.foldlM_append, h]
  rfl

theorem of_foldlM {step : σ → ω → Except ε σ} {I : σ → Prop}
    (hstep : ∀ s o s', I s → step s o = .ok s' → I s') :
    ∀ {os : List ω} {s s' : σ}, I s → os.foldlM step s = .ok s' → I s'
  | [], _, _, hI, h => Except.ok.inj h ▸ hI
  | o :: os, s, s', hI, h => by
    rw [List.foldlM_cons] at h
    cases hs : step s o with
    | error e =>
      rw [hs] at h
      exact absurd h (by rintro ⟨⟩)
    | ok s₁ =>
      rw [hs] at h
      exact of_foldlM hstep (hstep s o s₁ hI hs) h

/-- An invariant that every step meeting `C` keeps holds in every state of a run
whose steps all meet `C`. -/
theorem along_of_each {step : σ → ω → Except ε σ} (I : σ → Prop) (C : σ → ω → Prop)
    (hstep : ∀ s o s', I s → C s o → step s o = .ok s' → I s') :
    ∀ os s, I s → Each step C s os → Along step I s os := by
  intro os
  induction os with
  | nil => intro s hI _; exact hI
  | cons o os ih =>
    intro s hI hC
    refine ⟨hI, fun s' hs' => ?_⟩
    obtain ⟨ho, hos⟩ := hC s' hs'
    exact ih s' (hstep s o s' hI ho hs') hos

theorem Along.mono {step : σ → ω → Except ε σ} {P Q : σ → Prop} (hPQ : ∀ s, P s → Q s) :
    ∀ {os : List ω} {s : σ}, Along step P s os → Along step Q s os
  | [], s, h => hPQ s h
  | _ :: _, s, h => ⟨hPQ s h.1, fun s' hs' => Along.mono hPQ (h.2 s' hs')⟩

/-- Where no step from a good state fails with `e`, no run through good states does. -/
theorem Along.ne_error {step : σ → ω → Except ε σ} {P : σ → Prop} {e : ε}
    (hP : ∀ s o, P s → step s o ≠ .error e) :
    ∀ {os : List ω} {s : σ}, Along step P s os → os.foldlM step s ≠ .error e
  | [], _, _ => nofun
  | o :: os, s, h => by
    rw [List.foldlM_cons]
    cases hs : step s o with
    | error e' =>
      intro heq
      cases heq
      exact hP s o h.1 hs
    | ok s' => exact Along.ne_error hP (h.2 s' hs)

/-- Where every step that meets `C` succeeds, so does a run whose steps all meet `C`. -/
theorem Tries.run {step : σ → ω → Except ε σ} (I : σ → Prop) (C D : σ → ω → Prop)
    (hstep : ∀ s o, I s → C s o → ∃ s', step s o = .ok s' ∧ I s' ∧ D s o) :
    ∀ os s, I s → Tries step C s os →
      (∃ s', os.foldlM step s = .ok s') ∧ Along step I s os ∧ Each step D s os := by
  intro os
  induction os with
  | nil => intro s hI _; exact ⟨⟨s, rfl⟩, hI, trivial⟩
  | cons o os ih =>
    intro s hI hC
    obtain ⟨s', hs', hI', hD⟩ := hstep s o hI hC.1
    obtain ⟨hrun, halong, heach⟩ := ih s' hI' (hC.2 s' hs')
    rw [foldlM_cons_ok hs']
    refine ⟨hrun, ⟨hI, fun t ht => ?_⟩, fun t ht => ?_⟩
    · exact Except.ok.inj (hs'.symm.trans ht) ▸ halong
    · exact ⟨hD, Except.ok.inj (hs'.symm.trans ht) ▸ heach⟩

/-- Where no step that meets `C` fails with `e`, no run whose steps all meet `C` does. -/
theorem Tries.ne_error {step : σ → ω → Except ε σ} (I : σ → Prop) (C : σ → ω → Prop) {e : ε}
    (hstep : ∀ s o s', I s → step s o = .ok s' → I s')
    (hC : ∀ s o, I s → C s o → step s o ≠ .error e) :
    ∀ os s, I s → Tries step C s os → os.foldlM step s ≠ .error e := by
  intro os
  induction os with
  | nil => intro s _ _; nofun
  | cons o os ih =>
    intro s hI h
    rw [List.foldlM_cons]
    cases hs : step s o with
    | error e' =>
      intro heq
      cases heq
      exact hC s o hI h.1 hs
    | ok s' => exact ih s' (hstep s o s' hI hs) (h.2 s' hs)

/-- What holds of every step from a good state holds of every step of a run through good
states. -/
theorem Along.each_of {step : σ → ω → Except ε σ} {P : σ → Prop} {C : σ → ω → Prop}
    (hC : ∀ s o, P s → C s o) : ∀ {os : List ω} {s : σ}, Along step P s os → Each step C s os
  | [], _, _ => trivial
  | o :: _, s, h => fun s' hs' => ⟨hC s o h.1, Along.each_of hC (h.2 s' hs')⟩

theorem Along.each {step : σ → ω → Except ε σ} {F : σ → Prop} {permitted : ω → Prop} :
    ∀ {os : List ω} {s : σ}, (∀ o ∈ os, permitted o) → Along step F s os →
      Each step (fun s o => permitted o ∧ ∀ s', step s o = .ok s' → F s') s os
  | [], _, _, _ => trivial
  | o :: _, _, hos, h => fun s' hs' =>
      ⟨⟨hos o List.mem_cons_self, fun s'' hs'' => (h.2 s'' hs'').head⟩,
        Along.each (fun o' ho' => hos o' (List.mem_cons_of_mem o ho')) (h.2 s' hs')⟩

/-- Where every step lowers `μ`, a run is no longer than `μ` was. -/
theorem length_le_of_lt {step : σ → ω → Except ε σ} {I : σ → Prop} {μ : σ → ℕ}
    (hstep : ∀ s o s', I s → step s o = .ok s' → I s' ∧ μ s' < μ s) :
    ∀ {os : List ω} {s s' : σ}, I s → os.foldlM step s = .ok s' → os.length + μ s' ≤ μ s := by
  intro os
  induction os with
  | nil =>
    intro s s' _ h
    obtain rfl : s = s' := Except.ok.inj h
    exact Nat.le_of_eq (Nat.zero_add _)
  | cons o os ih =>
    intro s s' hI h
    rw [List.foldlM_cons] at h
    cases hs : step s o with
    | error e =>
      rw [hs] at h
      exact absurd h (by rintro ⟨⟩)
    | ok s₁ =>
      rw [hs] at h
      obtain ⟨hI₁, hlt⟩ := hstep s o s₁ hI hs
      have hrest := ih hI₁ h
      rw [List.length_cons]
      omega

/-- So it can be continued to where no step is possible. -/
theorem exists_stuck {step : σ → ω → Except ε σ} {I : σ → Prop} {μ : σ → ℕ}
    (hstep : ∀ s o s', I s → step s o = .ok s' → I s' ∧ μ s' < μ s) :
    ∀ s, I s → ∃ (os : List ω) (s' : σ), os.foldlM step s = .ok s' ∧ ∀ o t, step s' o ≠ .ok t := by
  intro s
  induction hn : μ s using Nat.strongRecOn generalizing s with
  | ind n ih =>
    intro hI
    by_cases hstuck : ∀ o t, step s o ≠ .ok t
    · exact ⟨[], s, rfl, hstuck⟩
    · push Not at hstuck
      obtain ⟨o, t, ht⟩ := hstuck
      obtain ⟨hI', hlt⟩ := hstep s o t hI ht
      obtain ⟨os, s', hos, hend⟩ := ih (μ t) (hn ▸ hlt) t rfl hI'
      exact ⟨o :: os, s', (foldlM_cons_ok ht os).trans hos, hend⟩

end Lib
