import Sylar.Lib.Records

/-! Threads that take turns. A thread is known by its number and is what it has still to do.
A turn replaces the first thing by others, may start threads, and may resume one that waits. -/

namespace Lib

variable {σ ρ ι : Type}

structure Thread (ρ ι : Type) where
  role : ρ
  code : List ι
deriving DecidableEq

/-- What a thread does in its turn. `resumed` is the number of a thread that waited. -/
structure Turn (σ ρ ι : Type) where
  shared : σ
  next : List ι
  born : List (Thread ρ ι)
  resumed : Option ℕ

structure Threads (σ ρ ι : Type) where
  shared : σ
  threads : List (Thread ρ ι)
deriving DecidableEq

/-- A turn that starts no thread and resumes none. -/
def Turn.only (shared : σ) (next : List ι) : Turn σ ρ ι := ⟨shared, next, [], none⟩

/-- `resume` says what a thread that waited goes on with. -/
def Thread.resume (resume : ι → ι) (t : Thread ρ ι) : Thread ρ ι :=
  { t with code := t.code.modifyHead resume }

namespace Threads

variable (resume : ι → ι)

def wake (ts : List (Thread ρ ι)) : Option ℕ → List (Thread ρ ι)
  | none => ts
  | some n => ts.modify n (Thread.resume resume)

/-- After the turn of thread `k`, which has `rest` to do after what it does now. -/
def after (s : Threads σ ρ ι) (k : ℕ) (role : ρ) (rest : List ι) (t : Turn σ ρ ι) :
    Threads σ ρ ι where
  shared := t.shared
  threads := wake resume (s.threads.set k ⟨role, t.next ++ rest⟩) t.resumed ++ t.born

def start (s : Threads σ ρ ι) (shared : σ) (role : ρ) (code : List ι) : Threads σ ρ ι :=
  ⟨shared, s.threads ++ [⟨role, code⟩]⟩

/-- Thread `k` has something else to do. -/
def put (s : Threads σ ρ ι) (k : ℕ) (role : ρ) (code : List ι) : Threads σ ρ ι :=
  { s with threads := s.threads.set k ⟨role, code⟩ }

section Run

variable {ε ω : Type} (exec : σ → ℕ → ρ → ι → ω → Except ε (Turn σ ρ ι)) (notEnabled : ε)

def run (s : Threads σ ρ ι) (k : ℕ) (w : ω) : Except ε (Threads σ ρ ι) :=
  match s.threads[k]? with
  | some ⟨role, i :: rest⟩ =>
      match exec s.shared k role i w with
      | .ok t => .ok (s.after resume k role rest t)
      | .error e => .error e
  | _ => .error notEnabled

variable {resume exec notEnabled}

/-- What a turn is. -/
structure Ran (exec : σ → ℕ → ρ → ι → ω → Except ε (Turn σ ρ ι)) (s : Threads σ ρ ι) (k : ℕ)
    (w : ω) (role : ρ) (i : ι) (rest : List ι) (t : Turn σ ρ ι) : Prop where
  look_eq : look s.threads k = some ⟨role, i :: rest⟩
  exec_eq : exec s.shared k role i w = .ok t

theorem run_ran {s s' : Threads σ ρ ι} {k : ℕ} {w : ω} (h : run resume exec notEnabled s k w = .ok s') :
    ∃ role i rest t, Ran exec s k w role i rest t ∧ s' = s.after resume k role rest t := by
  unfold run at h
  split at h
  · next role i rest hk =>
    split at h
    · next t ht => exact ⟨role, i, rest, t, ⟨hk, ht⟩, (Except.ok.inj h).symm⟩
    · cases h
  · cases h

end Run

section After

variable {resume}

variable {s : Threads σ ρ ι} {k : ℕ} {role : ρ} {i : ι} {rest : List ι} {t : Turn σ ρ ι}

theorem length_wake (ts : List (Thread ρ ι)) (r : Option ℕ) : (wake resume ts r).length = ts.length := by
  cases r with
  | none => rfl
  | some n => exact List.length_modify _ _ _

theorem look_wake (ts : List (Thread ρ ι)) (r : Option ℕ) (j : ℕ) :
    look (wake resume ts r) j = if r = some j then (look ts j).map (Thread.resume resume)
      else look ts j := by
  unfold look
  cases r with
  | none => rw [if_neg nofun]; rfl
  | some n =>
    show look (ts.modify n (Thread.resume resume)) j = _
    rw [look_modify]
    by_cases h : n = j
    · rw [if_pos h, if_pos (congrArg some h)]
      rfl
    · rw [if_neg h, if_neg fun heq => h (Option.some.inj heq)]
      rfl

/-- The threads that were there: the one whose turn it was, one that is resumed, the others. -/
theorem look_after_lt {j : ℕ} (hk : look s.threads k = some ⟨role, i :: rest⟩)
    (hj : j < s.threads.length) :
    look (s.after resume k role rest t).threads j =
      (if t.resumed = some j then Option.map (Thread.resume resume) else id)
        (if j = k then some ⟨role, t.next ++ rest⟩ else look s.threads j) := by
  have hlen : j < (wake resume (s.threads.set k ⟨role, t.next ++ rest⟩) t.resumed).length := by
    rw [length_wake, List.length_set]
    exact hj
  have hleft : look (s.after resume k role rest t).threads j =
      look (wake resume (s.threads.set k ⟨role, t.next ++ rest⟩) t.resumed) j :=
    List.getElem?_append_left hlen
  rw [hleft, look_wake, look_set hk, Function.update_apply]
  split <;> rfl

theorem look_after_self (hk : look s.threads k = some ⟨role, i :: rest⟩)
    (hres : t.resumed ≠ some k) :
    look (s.after resume k role rest t).threads k = some ⟨role, t.next ++ rest⟩ := by
  rw [look_after_lt hk (lt_length_of_look hk), if_neg hres, if_pos rfl]
  rfl

theorem look_after_resumed {n : ℕ} (hk : look s.threads k = some ⟨role, i :: rest⟩)
    (hres : t.resumed = some n) (hn : n ≠ k) {u : Thread ρ ι} (hu : look s.threads n = some u) :
    look (s.after resume k role rest t).threads n = some (u.resume resume) := by
  rw [look_after_lt hk (lt_length_of_look hu), if_pos hres, if_neg hn, hu]
  rfl

theorem look_after_other {j : ℕ} (hk : look s.threads k = some ⟨role, i :: rest⟩)
    (hres : t.resumed ≠ some j) (hj : j ≠ k) {u : Thread ρ ι} (hu : look s.threads j = some u) :
    look (s.after resume k role rest t).threads j = some u := by
  rw [look_after_lt hk (lt_length_of_look hu), if_neg hres, if_neg hj, hu]
  rfl

/-- After a turn that starts no thread and resumes none. -/
theorem look_after_only (resume : ι → ι) (shared : σ) (next : List ι)
    (hk : look s.threads k = some ⟨role, i :: rest⟩) (j : ℕ) :
    look (s.after resume k role rest (.only shared next)).threads j =
      if j = k then some ⟨role, next ++ rest⟩ else look s.threads j := by
  show look (s.threads.set k ⟨role, next ++ rest⟩ ++ []) j = _
  rw [List.append_nil, look_set hk, Function.update_apply]

theorem exists_look_after {j : ℕ} {u : Thread ρ ι} (hk : look s.threads k = some ⟨role, i :: rest⟩)
    (hself : t.resumed ≠ some k) (hu : look s.threads j = some u) :
    ∃ u', look (s.after resume k role rest t).threads j = some u' ∧ u'.role = u.role := by
  by_cases hj : j = k
  · subst hj
    cases hk.symm.trans hu
    exact ⟨_, look_after_self hk hself, rfl⟩
  · by_cases hres : t.resumed = some j
    · exact ⟨_, look_after_resumed hk hres hj hu, rfl⟩
    · exact ⟨_, look_after_other hk hres hj hu, rfl⟩

theorem forall_after {P : ℕ → Thread ρ ι → Prop} (hk : look s.threads k = some ⟨role, i :: rest⟩)
    (hself : t.resumed ≠ some k) (hown : P k ⟨role, t.next ++ rest⟩)
    (hborn : ∀ u ∈ t.born, ∀ j, s.threads.length ≤ j → P j u)
    (hresumed : ∀ n u, t.resumed = some n → n ≠ k → look s.threads n = some u →
      P n (u.resume resume))
    (hother : ∀ j u, t.resumed ≠ some j → j ≠ k → look s.threads j = some u → P j u) :
    ∀ j u, look (s.after resume k role rest t).threads j = some u → P j u := by
  intro j u hu
  by_cases hlt : j < s.threads.length
  · by_cases hjk : j = k
    · subst hjk
      rw [look_after_self hk hself] at hu
      exact Option.some.inj hu ▸ hown
    · obtain ⟨v, hv⟩ : ∃ v, look s.threads j = some v := ⟨_, List.getElem?_eq_getElem hlt⟩
      by_cases hres : t.resumed = some j
      · rw [look_after_resumed hk hres hjk hv] at hu
        exact Option.some.inj hu ▸ hresumed j v hres hjk hv
      · rw [look_after_other hk hres hjk hv] at hu
        exact Option.some.inj hu ▸ hother j v hres hjk hv
  · have hright : look (s.after resume k role rest t).threads j = t.born[j - s.threads.length]? := by
      show (wake resume (s.threads.set k ⟨role, t.next ++ rest⟩) t.resumed ++ t.born)[j]? = _
      rw [List.getElem?_append_right (by rw [length_wake, List.length_set]; omega), length_wake,
        List.length_set]
    exact hborn u (List.mem_of_getElem? (hright.symm.trans hu)) j (by omega)

theorem forall_after_only {P : ℕ → Thread ρ ι → Prop} (resume : ι → ι) {shared : σ} {next : List ι}
    (hk : look s.threads k = some ⟨role, i :: rest⟩) (hown : P k ⟨role, next ++ rest⟩)
    (hother : ∀ j u, j ≠ k → look s.threads j = some u → P j u) :
    ∀ j u, look (s.after resume k role rest (.only shared next)).threads j = some u → P j u := by
  intro j u hu
  rw [look_after_only resume shared next hk] at hu
  split at hu
  · next hj => exact hj ▸ Option.some.inj hu ▸ hown
  · next hj => exact hother j u hj hu

/-- What is to be shown of every two threads after a turn that starts none and resumes none. -/
theorem pairs_after {P : Thread ρ ι → Thread ρ ι → Prop} (hk : look s.threads k = some ⟨role, i :: rest⟩)
    (hres : t.resumed = none) (hborn : t.born = [])
    (hown : ∀ j u, j ≠ k → look s.threads j = some u →
      P ⟨role, t.next ++ rest⟩ u ∧ P u ⟨role, t.next ++ rest⟩)
    (hother : ∀ j l u v, j ≠ l → look s.threads j = some u → look s.threads l = some v → P u v) :
    ∀ j l u v, j ≠ l → look (s.after resume k role rest t).threads j = some u →
      look (s.after resume k role rest t).threads l = some v → P u v := by
  have hthreads : (s.after resume k role rest t).threads =
      s.threads.set k ⟨role, t.next ++ rest⟩ := by
    unfold after
    rw [hres, hborn, List.append_nil]
    rfl
  intro j l u v hjl hu hv
  rw [hthreads, look_set hk, Function.update_apply] at hu hv
  split at hu
  · next hj =>
    rw [if_neg fun hl => hjl (hj.trans hl.symm)] at hv
    exact Option.some.inj hu ▸ (hown l v (fun hl => hjl (hj.trans hl.symm)) hv).1
  · next hj =>
    split at hv
    · exact Option.some.inj hv ▸ (hown j u hj hu).2
    · exact hother j l u v hjl hu hv

def code (s : Threads σ ρ ι) (j : ℕ) : List ι := ((look s.threads j).map Thread.code).getD []

theorem code_of_look {j : ℕ} {u : Thread ρ ι} (hu : look s.threads j = some u) :
    s.code j = u.code := by
  unfold code
  rw [hu]
  rfl

theorem look_of_mem_code {j : ℕ} {x : ι} (hx : x ∈ s.code j) :
    ∃ u, look s.threads j = some u ∧ x ∈ u.code := by
  unfold code at hx
  cases hu : look s.threads j with
  | none =>
    rw [hu] at hx
    exact absurd hx List.not_mem_nil
  | some u =>
    rw [hu] at hx
    exact ⟨u, rfl, hx⟩

theorem look_start_old {j : ℕ} {u : Thread ρ ι} (shared : σ) (role : ρ) (c : List ι)
    (hu : look s.threads j = some u) : look (s.start shared role c).threads j = some u :=
  look_append_old hu _

theorem look_start_cases {j : ℕ} {u : Thread ρ ι} {shared : σ} {c : List ι}
    (hu : look (s.start shared role c).threads j = some u) :
    j = s.threads.length ∧ u = ⟨role, c⟩ ∨ look s.threads j = some u :=
  look_append_cases hu

theorem code_start (s : Threads σ ρ ι) (shared : σ) (role : ρ) (c : List ι) (j : ℕ) :
    (s.start shared role c).code j = if j = s.threads.length then c else s.code j := by
  show ((look (s.threads ++ [⟨role, c⟩]) j).map Thread.code).getD [] = _
  rw [look_append, Function.update_apply]
  by_cases h : j = s.threads.length
  · rw [if_pos h, if_pos h]
    rfl
  · rw [if_neg h, if_neg h]
    rfl

theorem lt_of_mem_code {j : ℕ} {x : ι} (h : x ∈ s.code j) : j < s.threads.length := by
  obtain ⟨u, hu, -⟩ := look_of_mem_code h
  exact lt_length_of_look hu

theorem mem_code_start {j : ℕ} {x : ι} {shared : σ} {c : List ι}
    (h : x ∈ (s.start shared role c).code j) :
    x ∈ s.code j ∨ j = s.threads.length ∧ x ∈ c := by
  rw [code_start] at h
  split at h
  · next hj => exact .inr ⟨hj, h⟩
  · exact .inl h

theorem code_start_of_mem {j : ℕ} {x : ι} (shared : σ) (role : ρ) (c : List ι) (h : x ∈ s.code j) :
    (s.start shared role c).code j = s.code j := by
  rw [code_start, if_neg (lt_of_mem_code h).ne]

theorem mem_resume {x : ι} (hx : ∀ y, resume y = x → y = x) {u : Thread ρ ι}
    (h : x ∈ (u.resume resume).code) : x ∈ u.code := by
  unfold Thread.resume at h
  cases hc : u.code with
  | nil =>
    rw [hc] at h
    exact h
  | cons y ys =>
    rw [hc] at h
    rcases List.mem_cons.mp h with heq | hmem
    · rw [hx y heq.symm]
      exact List.mem_cons_self
    · exact List.mem_cons_of_mem y hmem

theorem mem_resume_of_mem {x : ι} (hx : resume x = x) {u : Thread ρ ι} (h : x ∈ u.code) :
    x ∈ (u.resume resume).code := by
  unfold Thread.resume
  cases hc : u.code with
  | nil =>
    rw [hc] at h
    exact h
  | cons y ys =>
    rw [hc] at h
    rcases List.mem_cons.mp h with heq | hmem
    · subst heq
      exact List.mem_cons.mpr (.inl hx.symm)
    · exact List.mem_cons_of_mem _ hmem

/-- What a thread has to do after a turn and is not what one is resumed with: it comes from
the turn, or was there. -/
theorem mem_code_after {j : ℕ} {x : ι} (hx : ∀ y, resume y = x → y = x)
    (hk : look s.threads k = some ⟨role, i :: rest⟩) (hself : t.resumed ≠ some k)
    (h : x ∈ (s.after resume k role rest t).code j) :
    j = k ∧ x ∈ t.next ++ rest ∨ j ≠ k ∧ x ∈ s.code j ∨
      s.threads.length ≤ j ∧ ∃ u ∈ t.born, x ∈ u.code := by
  obtain ⟨u, hu, hmem⟩ := look_of_mem_code h
  refine forall_after (P := fun j u => x ∈ u.code → j = k ∧ x ∈ t.next ++ rest ∨
    j ≠ k ∧ x ∈ s.code j ∨ s.threads.length ≤ j ∧ ∃ u ∈ t.born, x ∈ u.code) hk hself ?_ ?_ ?_ ?_
    j u hu hmem
  · exact fun hmem => .inl ⟨rfl, hmem⟩
  · exact fun u hu j hj hmem => .inr (.inr ⟨hj, u, hu, hmem⟩)
  · intro n u _ hn hu hmem
    exact .inr (.inl ⟨hn, code_of_look hu ▸ mem_resume hx hmem⟩)
  · intro j u _ hj hu hmem
    exact .inr (.inl ⟨hj, code_of_look hu ▸ hmem⟩)

theorem mem_after_of_ne {j : ℕ} {x : ι} (hx : resume x = x)
    (hk : look s.threads k = some ⟨role, i :: rest⟩) (hj : j ≠ k) (h : x ∈ s.code j) :
    x ∈ (s.after resume k role rest t).code j := by
  obtain ⟨u, hu, hmem⟩ := look_of_mem_code h
  by_cases hres : t.resumed = some j
  · rw [code_of_look (look_after_resumed hk hres hj hu)]
    exact mem_resume_of_mem hx hmem
  · rw [code_of_look (look_after_other hk hres hj hu)]
    exact hmem

theorem code_after_self (hk : look s.threads k = some ⟨role, i :: rest⟩)
    (hself : t.resumed ≠ some k) : (s.after resume k role rest t).code k = t.next ++ rest := by
  rw [code_of_look (look_after_self hk hself)]

section Put

variable {old new : List ι}

theorem look_put (hk : look s.threads k = some ⟨role, old⟩) (new : List ι) (j : ℕ) :
    look (s.put k role new).threads j = if j = k then some ⟨role, new⟩ else look s.threads j := by
  show look (s.threads.set k ⟨role, new⟩) j = _
  rw [look_set hk, Function.update_apply]

theorem forall_put {P : ℕ → Thread ρ ι → Prop} (hk : look s.threads k = some ⟨role, old⟩)
    (hown : P k ⟨role, new⟩) (hother : ∀ j u, look s.threads j = some u → P j u) :
    ∀ j u, look (s.put k role new).threads j = some u → P j u := by
  intro j u hu
  rw [look_put hk] at hu
  split at hu
  · next hj => exact hj ▸ Option.some.inj hu ▸ hown
  · exact hother j u hu

theorem look_put_other (hk : look s.threads k = some ⟨role, old⟩) (new : List ι) {j : ℕ}
    {u : Thread ρ ι} (hu : look s.threads j = some u) (hne : u ≠ ⟨role, old⟩) :
    look (s.put k role new).threads j = some u := by
  have hj : j ≠ k := by
    rintro rfl
    exact hne (Option.some.inj (hu.symm.trans hk))
  rw [look_put hk, if_neg hj]
  exact hu

theorem code_put (hk : look s.threads k = some ⟨role, old⟩) (new : List ι) (j : ℕ) :
    (s.put k role new).code j = if j = k then new else s.code j := by
  unfold code
  rw [look_put hk]
  split <;> rfl

theorem mem_code_put {j : ℕ} {x : ι} (hk : look s.threads k = some ⟨role, old⟩)
    (h : x ∈ (s.put k role new).code j) : x ∈ s.code j ∨ x ∈ new := by
  rw [code_put hk] at h
  split at h
  · exact .inr h
  · exact .inl h

/-- What was to be done stays, except of what the thread drops. -/
theorem code_put_of_mem {j : ℕ} {x : ι} (hk : look s.threads k = some ⟨role, old⟩) (hx : x ∉ old)
    (h : x ∈ s.code j) : (s.put k role new).code j = s.code j := by
  have hj : j ≠ k := by
    rintro rfl
    rw [code_of_look hk] at h
    exact hx h
  rw [code_put hk, if_neg hj]

end Put

/-- Everything that is still to be done, weighed. -/
def total (w : ρ → ι → ℕ) (ts : List (Thread ρ ι)) : ℕ :=
  (ts.map fun u => (u.code.map (w u.role)).sum).sum

theorem total_append (w : ρ → ι → ℕ) (ts us : List (Thread ρ ι)) :
    total w (ts ++ us) = total w ts + total w us := by
  simp [total]

theorem total_start (w : ρ → ι → ℕ) (s : Threads σ ρ ι) (shared : σ) (role : ρ) (c : List ι) :
    total w (s.start shared role c).threads = total w s.threads + (c.map (w role)).sum := by
  show total w (s.threads ++ [⟨role, c⟩]) = _
  rw [total_append]
  simp [total]

theorem total_set (w : ρ → ι → ℕ) {ts : List (Thread ρ ι)}
    (hk : look ts k = some ⟨role, i :: rest⟩) (next : List ι) :
    total w (ts.set k ⟨role, next ++ rest⟩) + w role i =
      total w ts + (next.map (w role)).sum := by
  have h := sum_map_set (fun u : Thread ρ ι => (u.code.map (w u.role)).sum) hk ⟨role, next ++ rest⟩
  simp only [List.map_append, List.sum_append, List.map_cons, List.sum_cons] at h
  unfold total
  omega

theorem total_put (w : ρ → ι → ℕ) {old : List ι} (hk : look s.threads k = some ⟨role, old⟩)
    (new : List ι) : total w (s.put k role new).threads + (old.map (w role)).sum =
      total w s.threads + (new.map (w role)).sum :=
  sum_map_set (fun u : Thread ρ ι => (u.code.map (w u.role)).sum) hk ⟨role, new⟩

theorem le_total (w : ρ → ι → ℕ) {ts : List (Thread ρ ι)}
    (hk : look ts k = some ⟨role, i :: rest⟩) : w role i ≤ total w ts := by
  have hle : ((i :: rest).map (w role)).sum ≤ total w ts :=
    le_sum_map (fun u : Thread ρ ι => (u.code.map (w u.role)).sum) hk
  rw [List.map_cons, List.sum_cons] at hle
  omega

theorem total_add (w v : ρ → ι → ℕ) (ts : List (Thread ρ ι)) :
    total (fun r x => w r x + v r x) ts = total w ts + total v ts := by
  unfold total
  rw [← List.sum_map_add]
  simp [List.sum_map_add]

/-- One weight is below another, and one thread has what it does next of both. -/
theorem total_add_le {w p : ρ → ι → ℕ} (hle : ∀ r x, w r x ≤ p r x) {ts : List (Thread ρ ι)}
    (hk : look ts k = some ⟨role, i :: rest⟩) : total w ts + p role i ≤ total p ts + w role i := by
  have hsplit : p = fun r x => w r x + (p r x - w r x) := by
    funext r x
    have hx := hle r x
    omega
  have hsum : total p ts = total w ts + total (fun r x => p r x - w r x) ts := by
    conv_lhs => rw [hsplit]
    exact total_add w _ ts
  have hhead := le_total (fun r x => p r x - w r x) hk
  have hi := hle role i
  omega

theorem total_eq_zero {w : ρ → ι → ℕ} {ts : List (Thread ρ ι)}
    (h : ∀ u ∈ ts, ∀ x ∈ u.code, w u.role x = 0) : total w ts = 0 := by
  refine List.sum_eq_zero fun n hn => ?_
  obtain ⟨u, hu, rfl⟩ := List.mem_map.mp hn
  refine List.sum_eq_zero fun m hm => ?_
  obtain ⟨x, hx, rfl⟩ := List.mem_map.mp hm
  exact h u hu x hx

theorem exists_of_total_pos {w : ρ → ι → ℕ} (h : 0 < total w s.threads) :
    ∃ j u x, look s.threads j = some u ∧ x ∈ u.code ∧ 0 < w u.role x := by
  by_contra hnone
  push Not at hnone
  refine h.ne' (total_eq_zero fun u hu x hx => ?_)
  obtain ⟨j, hj⟩ := List.mem_iff_getElem?.mp hu
  exact Nat.le_zero.mp (hnone j u x hj hx)

theorem total_wake {w : ρ → ι → ℕ} (hw : ∀ r x, w r (resume x) = w r x)
    (ts : List (Thread ρ ι)) (r : Option ℕ) : total w (wake resume ts r) = total w ts := by
  have hresume : ∀ u : Thread ρ ι,
      ((u.resume resume).code.map (w u.role)).sum = (u.code.map (w u.role)).sum := by
    intro u
    unfold Thread.resume
    cases u.code with
    | nil => rfl
    | cons x xs => simp [hw]
  cases r with
  | none => rfl
  | some n =>
    cases hu : look ts n with
    | none =>
      show total w (ts.modify n (Thread.resume resume)) = _
      rw [List.modify_eq_self (List.getElem?_eq_none_iff.mp hu)]
    | some u =>
      have hset := sum_map_set (fun u : Thread ρ ι => (u.code.map (w u.role)).sum) hu
        (u.resume resume)
      have hrole : ((u.resume resume).code.map (w (u.resume resume).role)).sum =
        (u.code.map (w u.role)).sum := hresume u
      show total w (ts.modify n (Thread.resume resume)) = _
      rw [modify_eq_set _ hu]
      unfold total
      omega

theorem total_after_turn {w : ρ → ι → ℕ} (hw : ∀ r x, w r (resume x) = w r x)
    (hk : look s.threads k = some ⟨role, i :: rest⟩) :
    total w (s.after resume k role rest t).threads + w role i =
      total w s.threads + (t.next.map (w role)).sum + total w t.born := by
  have hset := total_set w hk t.next
  have hwake : total w (wake resume (s.threads.set k ⟨role, t.next ++ rest⟩) t.resumed) = _ :=
    total_wake hw (s.threads.set k ⟨role, t.next ++ rest⟩) t.resumed
  have happ := total_append w
    (wake resume (s.threads.set k ⟨role, t.next ++ rest⟩) t.resumed) t.born
  show total w (wake resume (s.threads.set k ⟨role, t.next ++ rest⟩) t.resumed ++ t.born) + _ = _
  omega

theorem total_after (w : ρ → ι → ℕ) (hk : look s.threads k = some ⟨role, i :: rest⟩)
    (hres : t.resumed = none) :
    total w (s.after resume k role rest t).threads + w role i =
      total w s.threads + (t.next.map (w role)).sum + total w t.born := by
  have hset := total_set w hk t.next
  have happ := total_append w (s.threads.set k ⟨role, t.next ++ rest⟩) t.born
  have hthreads : (s.after resume k role rest t).threads =
      s.threads.set k ⟨role, t.next ++ rest⟩ ++ t.born := by
    unfold after
    rw [hres]
    rfl
  rw [hthreads]
  omega

theorem total_after_resumed (w : ρ → ι → ℕ) {n : ℕ} {r : ρ} {j : ι} {c : List ι}
    (hk : look s.threads k = some ⟨role, i :: rest⟩) (hres : t.resumed = some n) (hn : n ≠ k)
    (hu : look s.threads n = some ⟨r, j :: c⟩) :
    total w (s.after resume k role rest t).threads + w role i + w r j =
      total w s.threads + (t.next.map (w role)).sum + total w t.born + w r (resume j) := by
  have hset := total_set w hk t.next
  have hu' : look (s.threads.set k ⟨role, t.next ++ rest⟩) n = some ⟨r, j :: c⟩ := by
    rw [look_set hk, Function.update_of_ne hn]
    exact hu
  have hwake := total_set w hu' [resume j]
  have happ := total_append w
    ((s.threads.set k ⟨role, t.next ++ rest⟩).set n ⟨r, [resume j] ++ c⟩) t.born
  have hthreads : (s.after resume k role rest t).threads =
      (s.threads.set k ⟨role, t.next ++ rest⟩).set n ⟨r, [resume j] ++ c⟩ ++ t.born := by
    unfold after
    rw [hres]
    show (s.threads.set k ⟨role, t.next ++ rest⟩).modify n (Thread.resume resume) ++ t.born = _
    rw [modify_eq_set _ hu']
    rfl
  rw [hthreads]
  simp only [List.map_cons, List.map_nil, List.sum_cons, List.sum_nil] at hwake
  omega

/-- Everything that is still to be done. -/
def codes (ts : List (Thread ρ ι)) : List ι := ts.flatMap Thread.code

theorem codes_start (s : Threads σ ρ ι) (shared : σ) (role : ρ) (c : List ι) :
    codes (s.start shared role c).threads = codes s.threads ++ c := by
  show codes (s.threads ++ [⟨role, c⟩]) = _
  simp [codes]

/-- A turn replaces what the thread did by what it does next; the others are as they were. -/
theorem codes_after (resume : ι → ι) (hk : look s.threads k = some ⟨role, i :: rest⟩) :
    ∃ others, (codes s.threads).Perm (i :: others) ∧ ∀ shared next,
      (codes (s.after resume k role rest (.only shared next)).threads).Perm (next ++ others) := by
  obtain ⟨hlt, heq⟩ := List.getElem?_eq_some_iff.mp hk
  have hset : ∀ u, s.threads.set k u = s.threads.take k ++ u :: s.threads.drop (k + 1) := fun u => by
    rw [List.set_eq_take_append_cons_drop, if_pos hlt]
  have hsplit : s.threads = s.threads.take k ++ ⟨role, i :: rest⟩ :: s.threads.drop (k + 1) := by
    rw [← hset, ← heq, List.set_getElem_self]
  refine ⟨codes (s.threads.take k) ++ (rest ++ codes (s.threads.drop (k + 1))), ?_, fun shared next => ?_⟩
  · have hcodes : codes s.threads =
        codes (s.threads.take k) ++ i :: (rest ++ codes (s.threads.drop (k + 1))) := by
      conv_lhs => rw [hsplit]
      simp only [codes, List.flatMap_append, List.flatMap_cons, List.cons_append]
    rw [hcodes]
    exact List.perm_middle
  · show (codes (s.threads.set k ⟨role, next ++ rest⟩ ++ [])).Perm _
    rw [List.append_nil, hset]
    simp only [codes, List.flatMap_append, List.flatMap_cons, List.append_assoc]
    exact List.perm_append_comm_assoc _ _ _

end After

end Threads

end Lib
