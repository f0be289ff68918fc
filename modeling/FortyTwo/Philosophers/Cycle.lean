import FortyTwo.Foundation.Accord
import FortyTwo.Philosophers.DeadlockFreedom
import FortyTwo.Philosophers.Sections

/-!
What each philosopher prints, and when the monitor takes all of them for full. A
philosopher prints his meals one after the other, each with its lines in the same
order, until `dead` or `full` is set; a meal is counted behind its line.
-/

namespace FortyTwo.Philosophers

open Foundation Foundation.Prog Foundation.Accord

/-- The lines of the philosopher `id`; a "died" is the monitor's. -/
def lines (id : Nat) (printed : List (Nat × Nat × String)) : List String :=
  (printed.filter fun entry => entry.2.1 = id ∧ entry.2.2 ≠ "died").map (·.2.2)

/-- The lines of a meal, and of the sleep behind it. -/
def mealLines : List String :=
  ["has taken a fork", "has taken a fork", "is eating", "is sleeping"]

/-- The lines of so many meals. Only the odd ones think, before the first. -/
def script (id meals : Nat) : List String :=
  (if id % 2 = 1 then ["is thinking"] else []) ++ (List.replicate meals mealLines).flatten

/-- How often the philosopher `id` is said to be eating. -/
def eatings (id : Nat) (printed : List (Nat × Nat × String)) : Nat :=
  (lines id printed).count "is eating"

section Lines

variable {id time : Nat} {message : String} {printed : List (Nat × Nat × String)}

theorem lines_concat_self (h : message ≠ "died") :
    lines id (printed ++ [(time, id, message)]) = lines id printed ++ [message] := by
  simp [lines, h]

theorem lines_concat_of_ne {other : Nat} (h : other ≠ id) :
    lines id (printed ++ [(time, other, message)]) = lines id printed := by
  simp [lines, h]

theorem lines_concat_died {other : Nat} :
    lines id (printed ++ [(time, other, "died")]) = lines id printed := by
  simp [lines]

theorem script_succ (id meals : Nat) : script id (meals + 1) = script id meals ++ mealLines := by
  simp [script, List.replicate_succ']

theorem count_script (id meals : Nat) : (script id meals).count "is eating" = meals := by
  induction meals with
  | zero => rcases Nat.mod_two_eq_zero_or_one id with h | h <;> simp [script, h]
  | succ meals ih =>
      rw [script_succ, List.count_append, ih]
      rfl

/-- The first lines of the next meal. -/
theorem script_append_prefix {w : List String} (meals : Nat) (h : w <+: mealLines) :
    script id meals ++ w <+: script id (meals + 1) := by
  rw [script_succ]
  exact (List.prefix_append_right_inj _).mpr h

end Lines

def Stopped (table : Table) : Prop := table.dead ≠ 0 ∨ table.full ≠ 0

/-- What never goes back. -/
structure Later (x y : Table) : Prop where
  rounds : y.rounds = x.rounds
  dead : x.dead ≠ 0 → y.dead ≠ 0
  full : x.full ≠ 0 → y.full ≠ 0
  meals : ∀ i, x.meals i ≤ y.meals i

/-- What only the philosopher `i` changes. -/
structure Leaves (i : Nat) (x y : Table) : Prop where
  meals : y.meals i = x.meals i
  lines : lines (i + 1) y.printed = lines (i + 1) x.printed

/-- The lines are those of meals, the meals are counted behind their lines, and
when `full` is set all rounds have been printed. -/
structure Kept (n : Nat) (table : Table) : Prop where
  scripted : ∀ i, i < n → ∃ meals, lines (i + 1) table.printed <+: script (i + 1) meals
  counted : Stopped table ∨ ∀ i, i < n → table.meals i ≤ eatings (i + 1) table.printed
  full : table.full ≠ 0 →
    table.rounds ≠ -1 ∧ ∀ i, i < n → table.rounds ≤ eatings (i + 1) table.printed

def telling (n : Nat) : Accord (ThreadId n) Table where
  rely t x y := Later x y ∧ (∀ i : Fin n, t = .philo i → Leaves i x y) ∧
    (t = .monitor → y.dead = x.dead)
  guar t x y := Later x y ∧ (∀ i : Fin n, t ≠ .philo i → Leaves i x y) ∧
    (t ≠ .monitor → y.dead = x.dead) ∧ (Kept n x → Kept n y)

section Frames

variable {n : Nat} {x y z : Table}

theorem Later.refl (x : Table) : Later x x := ⟨rfl, id, id, fun _ => le_rfl⟩

theorem Later.trans (h : Later x y) (h' : Later y z) : Later x z :=
  ⟨h'.rounds.trans h.rounds, h'.dead ∘ h.dead, h'.full ∘ h.full,
    fun i => (h.meals i).trans (h'.meals i)⟩

theorem Later.stopped (h : Later x y) : Stopped x → Stopped y := Or.imp h.dead h.full

theorem Leaves.trans {i : Nat} (h : Leaves i x y) (h' : Leaves i y z) : Leaves i x z :=
  ⟨h'.meals.trans h.meals, h'.lines.trans h.lines⟩

/-- A change of what is not spoken of. -/
theorem guar_unchanged {t : ThreadId n} (hrounds : y.rounds = x.rounds) (hdead : y.dead = x.dead)
    (hfull : y.full = x.full) (hmeals : y.meals = x.meals) (hprinted : y.printed = x.printed) :
    (telling n).guar t x y := by
  refine ⟨⟨hrounds, by rw [hdead]; exact id, by rw [hfull]; exact id, by simp [hmeals]⟩,
    fun _ _ => ⟨by rw [hmeals], by rw [hprinted]⟩, fun _ => hdead, fun h => ?_⟩
  refine ⟨?_, ?_, ?_⟩
  · rw [hprinted]
    exact h.scripted
  · rw [Stopped, hdead, hfull, hprinted, hmeals]
    exact h.counted
  · rw [hfull, hprinted, hrounds]
    exact h.full

theorem telling_sound : (telling n).Sound Tick where
  refl _ x := ⟨.refl x, fun _ _ => ⟨rfl, rfl⟩, fun _ => rfl⟩
  trans h h' := ⟨h.1.trans h'.1, fun i hi => (h.2.1 i hi).trans (h'.2.1 i hi),
    fun ht => (h'.2.2 ht).trans (h.2.2 ht)⟩
  compat hne h := ⟨h.1, fun i hi => h.2.1 i fun ht => hne (hi.trans ht.symm),
    fun ht => h.2.2.1 fun heq => hne (ht.trans heq.symm)⟩
  rely_environment _ htick := by
    obtain ⟨time, -, rfl⟩ := htick
    exact ⟨⟨rfl, id, id, fun _ => le_rfl⟩, fun _ _ => ⟨rfl, rfl⟩, fun _ => rfl⟩
  idle _ _ := guar_unchanged rfl rfl rfl rfl rfl

end Frames

section Philosopher

variable {n : Nat} {i : Fin n} {A : Table → Prop} {w : List String} {k : Nat}

/-- The philosopher `i` has come to the end of the lines `w`, unless he was stopped
before, and has counted `k` meals. -/
def Told (i : Nat) (w : List String) (k : Nat) (table : Table) : Prop :=
  table.meals i = k ∧
    (lines (i + 1) table.printed = w ∨ Stopped table ∧ lines (i + 1) table.printed <+: w)

theorem told_stable : (telling n).Stable (.philo i) (Told i w k) := by
  intro x y hy hx
  have hleaves := hy.2.1 i rfl
  rw [Told, hleaves.meals, hleaves.lines]
  exact ⟨hx.1, hx.2.imp_right (And.imp_left hy.1.stopped)⟩

theorem true_stable {t : ThreadId n} : (telling n).Stable t fun _ => True := fun _ => id

theorem Told.more {table : Table} {more : List String} (h : Told i w k table)
    (hstopped : Stopped table) : Told i (w ++ more) k table := by
  refine ⟨h.1, Or.inr ⟨hstopped, ?_⟩⟩
  rcases h.2 with heq | ⟨-, hbefore⟩
  · rw [heq]
    exact List.prefix_append w more
  · exact hbefore.trans (List.prefix_append w more)

/-- The next line of the philosopher. -/
private theorem guar_line {table : Table} {message : String} {time : Nat}
    (hmessage : message ≠ "died") (hlines : lines (i.val + 1) table.printed = w)
    (hscript : ∃ meals, w ++ [message] <+: script (i.val + 1) meals) :
    (telling n).guar (.philo i) table
      { table with printed := table.printed ++ [(time, i.val + 1, message)] } := by
  have hself : lines (i.val + 1) (table.printed ++ [(time, i.val + 1, message)]) =
      w ++ [message] := by
    rw [lines_concat_self hmessage, hlines]
  have hother : ∀ j, j ≠ i.val →
      lines (j + 1) (table.printed ++ [(time, i.val + 1, message)]) =
        lines (j + 1) table.printed :=
    fun j hj => lines_concat_of_ne (by omega)
  have heatings : ∀ j, eatings (j + 1) table.printed ≤
      eatings (j + 1) (table.printed ++ [(time, i.val + 1, message)]) := by
    intro j
    by_cases hj : j = i.val
    · subst hj
      rw [eatings, eatings, hself, hlines]
      exact (List.sublist_append_left w [message]).count_le _
    · rw [eatings, eatings, hother j hj]
  refine ⟨⟨rfl, id, id, fun _ => le_rfl⟩, fun j hj => ⟨rfl, hother j fun heq => ?_⟩,
    fun _ => rfl, fun h => ⟨fun j hj => ?_, h.counted.imp id fun hcounted j hj => ?_, fun hfull => ?_⟩⟩
  · exact hj (congrArg ThreadId.philo (Fin.ext heq.symm))
  · by_cases heq : j = i.val
    · subst heq
      obtain ⟨meals, hmeals⟩ := hscript
      exact ⟨meals, by rw [hself]; exact hmeals⟩
    · obtain ⟨meals, hmeals⟩ := h.scripted j hj
      exact ⟨meals, by rw [hother j heq]; exact hmeals⟩
  · exact (hcounted j hj).trans (by exact_mod_cast heatings j)
  · obtain ⟨hrounds, hall⟩ := h.full hfull
    exact ⟨hrounds, fun j hj => (hall j hj).trans (by exact_mod_cast heatings j)⟩

theorem printSection_told {message : String} {time : Nat} (hmessage : message ≠ "died")
    (hscript : ∃ meals, w ++ [message] <+: script (i.val + 1) meals) :
    (telling n).Does (.philo i) A (Told i w k) (printSection (philo n i) message time)
      fun _ => Told i (w ++ [message]) k := by
  have hrelease : (telling n).Does (.philo i) A (Told i (w ++ [message]) k)
      (release Mutex.mealmutex >>= fun _ => release Mutex.deadmutex)
      fun _ => Told i (w ++ [message]) k :=
    does_bind _ (does_release told_stable) fun _ => does_release told_stable
  apply does_bind _ (does_acquire told_stable)
  intro _
  apply does_bind _ (does_acquire told_stable)
  intro _
  -- a philosopher who reads 0 twice has not been stopped before the second
  refine does_bind
    (fun dead table => Told i w k table ∧ (dead ≠ 0 → Stopped table) ∧
      (dead = 0 → lines (i.val + 1) table.printed = w ∨ table.full ≠ 0))
    (does_read telling_sound told_stable fun table h => ⟨h, Or.inl, fun hdead => ?_⟩)
    fun dead => ?_
  · exact h.2.imp_right fun hstopped => hstopped.1.resolve_left (not_not_intro hdead)
  have hdead : (telling n).Stable (.philo i) fun table => Told i w k table ∧
      (dead ≠ 0 → Stopped table) ∧
      (dead = 0 → lines (i.val + 1) table.printed = w ∨ table.full ≠ 0) := by
    intro x y hy hx
    refine ⟨told_stable hy hx.1, fun hne => hy.1.stopped (hx.2.1 hne), fun hzero => ?_⟩
    rw [(hy.2.1 i rfl).lines]
    exact (hx.2.2 hzero).imp_right hy.1.full
  refine does_bind
    (fun full table => Told i w k table ∧ (¬ (dead = 0 ∧ full = 0) → Stopped table) ∧
      (dead = 0 ∧ full = 0 → lines (i.val + 1) table.printed = w))
    (does_read telling_sound hdead fun table h => ⟨h.1, fun hne => ?_, fun hzero => ?_⟩)
    fun full => ?_
  · by_cases hzero : dead = 0
    · exact Or.inr fun hfull => hne ⟨hzero, hfull⟩
    · exact h.2.1 hzero
  · exact (h.2.2 hzero.1).resolve_right (not_not_intro hzero.2)
  have hfull : (telling n).Stable (.philo i) fun table => Told i w k table ∧
      (¬ (dead = 0 ∧ full = 0) → Stopped table) ∧
      (dead = 0 ∧ full = 0 → lines (i.val + 1) table.printed = w) := by
    intro x y hy hx
    refine ⟨told_stable hy hx.1, fun hne => hy.1.stopped (hx.2.1 hne), fun hzero => ?_⟩
    rw [(hy.2.1 i rfl).lines]
    exact hx.2.2 hzero
  split
  · next hzero =>
      refine does_bind _ (does_write hfull fun table h => ?_) fun _ => hrelease
      have hlines := h.2.2 hzero
      refine ⟨guar_line hmessage hlines hscript, h.1.1, Or.inl ?_⟩
      rw [← hlines]
      exact lines_concat_self hmessage
  · next hnonzero =>
      exact hrelease.mono (fun _ h => h.1.more (h.2.1 hnonzero)) fun _ _ => id

theorem printMessage_told {message : String} (hmessage : message ≠ "died")
    (hscript : ∃ meals, w ++ [message] <+: script (i.val + 1) meals) :
    (telling n).Does (.philo i) A (Told i w k) (printMessage (philo n i) message)
      fun _ => Told i (w ++ [message]) k := by
  rw [printMessage_eq]
  refine does_bind (fun _ => Told i w k)
    (does_read telling_sound told_stable fun _ => id) fun now => ?_
  exact does_bind (fun _ => Told i w k) (does_read telling_sound told_stable fun _ => id)
    fun start => printSection_told hmessage hscript

section Quiet

variable {t : ThreadId n} {P : Table → Prop} (hP : (telling n).Stable t P)
include hP

theorem ftUsleep_does {mseconds : Nat} :
    (telling n).Does t A P (ftUsleep mseconds) fun _ => P :=
  does_bind (fun _ => P) (does_read telling_sound hP fun _ => id) fun _ => does_sleep hP

theorem deadOrFull_does : (telling n).Does t A P deadOrFull fun _ => P := by
  apply does_bind _ (does_acquire hP)
  intro _
  apply does_bind _ (does_acquire hP)
  intro _
  refine does_bind (fun _ => P) (does_read telling_sound hP fun _ => id) fun dead => ?_
  refine does_bind (fun _ => P) (does_read telling_sound hP fun _ => id) fun full => ?_
  apply does_bind _ (does_release hP)
  intro _
  exact does_bind _ (does_release hP) fun _ => does_pure fun _ => id

/-- The deadlines are not spoken of. -/
theorem postpone_does {p : Philo} (hlast : ∀ table f, P table → P { table with lastMeal := f }) :
    (telling n).Does t A P (postpone p) fun _ => P := by
  refine does_bind (fun _ => P) (does_read telling_sound hP fun _ => id) fun now => ?_
  refine does_bind (fun _ => P) (does_read telling_sound hP fun _ => id) fun timeToDie => ?_
  exact does_write hP fun table h => ⟨guar_unchanged rfl rfl rfl rfl rfl, hlast _ _ h⟩

end Quiet

theorem takeFork_told {fork : Mutex}
    (hscript : ∃ meals, w ++ ["has taken a fork"] <+: script (i.val + 1) meals) :
    (telling n).Does (.philo i) A (Told i w k) (takeFork (philo n i) fork)
      fun result table => result = 0 → Told i (w ++ ["has taken a fork"]) k table := by
  apply does_bind _ (deadOrFull_does told_stable)
  intro stopped
  split
  · exact does_pure fun _ _ hzero => absurd hzero (by decide)
  · apply does_bind _ (does_acquire told_stable)
    intro _
    refine does_bind _ (printMessage_told (by decide) hscript) fun _ => ?_
    exact does_pure fun _ h _ => h

/-- Before his first meal the philosopher has printed nothing. -/
def Ready (i k : Nat) : Table → Prop := Told i (if k = 0 then [] else script (i + 1) k) k

theorem startLate_told :
    (telling n).Does (.philo i) A (Ready i k) (startLate (philo n i))
      fun _ => Told i (script (i.val + 1) k) k := by
  rw [startLate]
  have hsame : (i.val + 1) % 2 ≠ 1 ∨ k ≠ 0 →
      (if k = 0 then [] else script (i.val + 1) k) = script (i.val + 1) k := by
    intro h
    split
    · next hzero => simp [script, h.resolve_right (not_not_intro hzero), hzero]
    · rfl
  split
  · next hodd =>
      refine does_bind (fun (meals : Int) table => Ready i k table ∧ meals = k)
        (does_read telling_sound told_stable fun table h => ⟨h, h.1⟩) fun meals => ?_
      split
      · next hzero =>
          by_cases hk : k = 0
          · subst hk
            have hthink : script (i.val + 1) 0 = [] ++ ["is thinking"] := by
              have hmod : (i.val + 1) % 2 = 1 := hodd
              simp [script, hmod]
            rw [hthink]
            refine does_bind (fun _ => Told i ([] ++ ["is thinking"]) 0)
              ((printMessage_told (w := []) (by decide) ⟨0, by rw [hthink]⟩).mono (fun _ h => h.1)
                fun _ _ => id) fun _ => ?_
            refine does_bind (fun _ => Told i ([] ++ ["is thinking"]) 0)
              (does_read telling_sound told_stable fun _ => id) fun timeToDie => ?_
            exact ftUsleep_does told_stable
          · exact does_of_not fun table h => hk (by exact_mod_cast h.2.symm.trans hzero)
      · next hmeals =>
          refine does_pure fun table h => ?_
          have hk : k ≠ 0 := fun hk => hmeals (by rw [h.2, hk]; rfl)
          have hready := h.1
          rwa [Ready, hsame (Or.inr hk)] at hready
  · next hodd =>
      refine does_pure fun table h => ?_
      rwa [Ready, hsame (Or.inl hodd)] at h

theorem takeForks_told :
    (telling n).Does (.philo i) A (Ready i k) (takeForks (philo n i))
      fun result table => result = 0 →
        Told i (script (i.val + 1) k ++ ["has taken a fork"] ++ ["has taken a fork"]) k table := by
  have hfirst : ∃ meals, script (i.val + 1) k ++ ["has taken a fork"] <+:
      script (i.val + 1) meals := ⟨k + 1, script_append_prefix k (by decide)⟩
  have hsecond : ∃ meals, script (i.val + 1) k ++ ["has taken a fork"] ++ ["has taken a fork"] <+:
      script (i.val + 1) meals := by
    refine ⟨k + 1, ?_⟩
    rw [List.append_assoc]
    exact script_append_prefix k (by decide)
  have hboth : ∀ first second, (telling n).Does (.philo i) A
      (Told i (script (i.val + 1) k) k) (do
        if (← takeFork (philo n i) first) ≠ 0 then return (1 : Int)
        if (← takeFork (philo n i) second) ≠ 0 then
          release first
          return 1
        return 0)
      fun result table => result = 0 →
        Told i (script (i.val + 1) k ++ ["has taken a fork"] ++ ["has taken a fork"]) k table := by
    intro first second
    apply does_bind _ (takeFork_told hfirst)
    intro result
    split
    · exact does_pure fun _ _ hzero => absurd hzero (by decide)
    · next hresult =>
        refine does_bind _ ((takeFork_told hsecond).mono
          (fun _ h => h (not_not.mp hresult)) fun _ _ => id) fun result => ?_
        split
        · refine does_bind (fun _ _ => True)
            ((does_release true_stable).mono (fun _ _ => trivial) fun _ _ => id) fun _ => ?_
          exact does_pure fun _ _ hzero => absurd hzero (by decide)
        · next hresult => exact does_pure fun _ h _ => h (not_not.mp hresult)
  rw [takeForks]
  apply does_bind _ startLate_told
  intro _
  split
  · exact hboth _ _
  · exact hboth _ _

/-- A meal is counted once its line is printed, unless nothing is printed any more. -/
private theorem guar_meal {table : Table} (hw : w.count "is eating" = k + 1)
    (h : Told i w k table) :
    (telling n).guar (.philo i) table
      { table with
        meals := Function.update table.meals i.val (table.meals i.val + 1) } := by
  have hother : ∀ j, j ≠ i.val →
      Function.update table.meals i.val (table.meals i.val + 1) j = table.meals j :=
    fun j hj => Function.update_of_ne hj _ _
  refine ⟨⟨rfl, id, id, fun j => ?_⟩, fun j hj => ⟨hother j fun heq => ?_, rfl⟩, fun _ => rfl,
    fun hkept => ⟨hkept.scripted, ?_, hkept.full⟩⟩
  · by_cases hj : j = i.val
    · subst hj
      simp
    · exact (hother j hj).ge
  · exact hj (congrArg ThreadId.philo (Fin.ext heq.symm))
  · rcases h.2 with hlines | ⟨hstopped, -⟩
    · refine hkept.counted.imp id fun hcounted j hj => ?_
      change Function.update table.meals i.val (table.meals i.val + 1) j ≤
        (eatings (j + 1) table.printed : Int)
      by_cases heq : j = i.val
      · subst heq
        have heatings : eatings (i.val + 1) table.printed = k + 1 := by
          rw [eatings, hlines, hw]
        rw [Function.update_self, h.1, heatings]
        push_cast
        exact le_rfl
      · rw [hother j heq]
        exact hcounted j hj
    · exact Or.inl hstopped

theorem mealSection_told (hw : w.count "is eating" = k + 1) :
    (telling n).Does (.philo i) A (Told i w k) (mealSection (philo n i))
      fun _ => Told i w (k + 1) := by
  apply does_bind _ (does_acquire told_stable)
  intro _
  refine does_bind (fun _ => Told i w (k + 1)) (does_write told_stable fun table h => ?_)
    fun _ => ?_
  · refine ⟨guar_meal hw h, ?_, h.2⟩
    change Function.update table.meals i.val (table.meals i.val + 1) i.val = _
    rw [Function.update_self, h.1]
    push_cast
    rfl
  · apply does_bind _ (postpone_does told_stable fun _ _ => id)
    intro _
    exact does_release told_stable

theorem eat_told :
    (telling n).Does (.philo i) A (Ready i k) (eat (philo n i))
      fun result table => result = 0 → Told i (script (i.val + 1) k ++
        ["has taken a fork"] ++ ["has taken a fork"] ++ ["is eating"]) (k + 1) table := by
  have hscript : ∃ meals, script (i.val + 1) k ++ ["has taken a fork"] ++ ["has taken a fork"] ++
      ["is eating"] <+: script (i.val + 1) meals := by
    refine ⟨k + 1, ?_⟩
    rw [List.append_assoc, List.append_assoc]
    exact script_append_prefix k (by decide)
  have hcount : (script (i.val + 1) k ++ ["has taken a fork"] ++ ["has taken a fork"] ++
      ["is eating"]).count "is eating" = k + 1 := by
    rw [List.count_append, List.count_append, List.count_append, count_script]
    rfl
  rw [eat_eq]
  apply does_bind _ takeForks_told
  intro result
  split
  · exact does_pure fun _ _ hzero => absurd hzero (by decide)
  · next hresult =>
      refine does_bind _ ((printMessage_told (by decide) hscript).mono
        (fun _ h => h (not_not.mp hresult)) fun _ _ => id) fun _ => ?_
      apply does_bind _ (mealSection_told hcount)
      intro _
      refine does_bind (fun _ => Told i (script (i.val + 1) k ++ ["has taken a fork"] ++
        ["has taken a fork"] ++ ["is eating"]) (k + 1))
        (does_read telling_sound told_stable fun _ => id) fun timeToEat => ?_
      apply does_bind _ (ftUsleep_does told_stable)
      intro _
      apply does_bind _ (does_release told_stable)
      intro _
      exact does_bind _ (does_release told_stable) fun _ => does_pure fun _ h _ => h

/-- After a round that is not the last there is one meal more. -/
theorem routineLoop_told :
    (telling n).Rounds (.philo i) (fun table => ∃ k, Ready i k table)
      (fun table => ∃ k, Ready i k table) (routineLoop (philo n i)) := by
  apply does_exists
  intro k
  have hscript : script (i.val + 1) k ++ ["has taken a fork"] ++ ["has taken a fork"] ++
      ["is eating"] ++ ["is sleeping"] = script (i.val + 1) (k + 1) := by
    simp [script_succ, mealLines]
  apply does_bind _ eat_told
  intro result
  split
  · exact does_pure fun _ _ hagain => absurd hagain (by decide)
  · next hresult =>
      have hsleep : (telling n).Does (.philo i) (fun table => ∃ k, Ready i k table)
          (fun table => result = 0 → Told i (script (i.val + 1) k ++ ["has taken a fork"] ++
            ["has taken a fork"] ++ ["is eating"]) (k + 1) table) (philoSleep (philo n i))
          fun slept table => slept = 0 → Told i (script (i.val + 1) (k + 1)) (k + 1) table := by
        apply does_bind _ ((deadOrFull_does told_stable).mono
          (fun _ h => h (not_not.mp hresult)) fun _ _ => id)
        intro stopped
        split
        · exact does_pure fun _ _ hzero => absurd hzero (by decide)
        · apply does_bind _ (printMessage_told (by decide) ⟨k + 1, by rw [hscript]⟩)
          intro _
          rw [hscript]
          refine does_bind (fun _ => Told i (script (i.val + 1) (k + 1)) (k + 1))
            (does_read telling_sound told_stable fun _ => id) fun timeToSleep => ?_
          exact does_bind _ (ftUsleep_does told_stable) fun _ => does_pure fun _ h _ => h
      apply does_bind _ hsleep
      intro slept
      split
      · exact does_pure fun _ _ hagain => absurd hagain (by decide)
      · next hslept =>
          refine does_bind _ ((deadOrFull_does told_stable).mono
            (fun _ h => h (not_not.mp hslept)) fun _ _ => id) fun stopped => ?_
          split
          · exact does_pure fun _ _ hagain => absurd hagain (by decide)
          · exact does_pure fun _ h _ => ⟨k + 1, h⟩

theorem routineStart_told :
    (telling n).Rounds (.philo i) (fun table => ∃ k, Ready i k table)
      (fun table => ∃ k, Ready i k table) (routineStart (philo n i)) := by
  apply does_exists
  intro k
  apply does_bind _ (does_acquire told_stable)
  intro _
  apply does_bind _ (postpone_does told_stable fun _ _ => id)
  intro _
  exact does_bind _ (does_release told_stable) fun _ => does_pure fun _ h _ => ⟨k, h⟩

end Philosopher

section Monitor

variable {n : Nat} {A : Table → Prop}

def Undead (table : Table) : Prop := table.dead = 0

theorem undead_stable : (telling n).Stable .monitor Undead :=
  fun hy hx => (hy.2.2 rfl).trans hx

/-- A death is no line of a philosopher, and a monitor that has set `dead` is done. -/
private theorem guar_died {table : Table} {time who : Nat} :
    (telling n).guar .monitor table
      { table with printed := table.printed ++ [(time, who, "died")] } := by
  have hlines : ∀ j, lines (j + 1) (table.printed ++ [(time, who, "died")]) =
      lines (j + 1) table.printed := fun _ => lines_concat_died
  refine ⟨⟨rfl, id, id, fun _ => le_rfl⟩, fun j _ => ⟨rfl, hlines j⟩, fun _ => rfl,
    fun h => ⟨fun j hj => ?_, h.counted.imp id fun hcounted j hj => ?_, fun hfull => ?_⟩⟩
  · rw [hlines]
    exact h.scripted j hj
  · rw [eatings, hlines]
    exact hcounted j hj
  · refine ⟨(h.full hfull).1, fun j hj => ?_⟩
    rw [eatings, hlines]
    exact (h.full hfull).2 j hj

private theorem guar_dead {table : Table} :
    (telling n).guar .monitor table { table with dead := 1 } :=
  ⟨⟨rfl, fun _ => one_ne_zero, id, fun _ => le_rfl⟩, fun _ _ => ⟨rfl, rfl⟩,
    fun ht => absurd rfl ht, fun h => ⟨h.scripted, Or.inl (Or.inl one_ne_zero), h.full⟩⟩

theorem printDied_undead {p : Philo} {time : Nat} :
    (telling n).Does .monitor A Undead (printSection p "died" time) fun _ => Undead := by
  apply does_bind _ (does_acquire undead_stable)
  intro _
  apply does_bind _ (does_acquire undead_stable)
  intro _
  refine does_bind (fun _ => Undead) (does_read telling_sound undead_stable fun _ => id)
    fun dead => ?_
  refine does_bind (fun _ => Undead) (does_read telling_sound undead_stable fun _ => id)
    fun full => ?_
  have hrelease : (telling n).Does .monitor A Undead
      (release Mutex.mealmutex >>= fun _ => release Mutex.deadmutex) fun _ => Undead :=
    does_bind _ (does_release undead_stable) fun _ => does_release undead_stable
  split
  · exact does_bind _ (does_write undead_stable fun table h => ⟨guar_died, h⟩) fun _ => hrelease
  · exact hrelease

theorem checkIsDeadFrom_undead {i left : Nat} :
    (telling n).Does .monitor A Undead (checkIsDeadFrom n i left)
      fun result table => result = 0 → Undead table := by
  induction left generalizing i with
  | zero => exact does_pure fun _ h _ => h
  | succ left ih =>
      apply does_bind _ (does_acquire undead_stable)
      intro _
      refine does_bind (fun _ => Undead) (does_read telling_sound undead_stable fun _ => id)
        fun now => ?_
      refine does_bind (fun _ => Undead) (does_read telling_sound undead_stable fun _ => id)
        fun lastMeal => ?_
      split
      · apply does_bind _ (does_release undead_stable)
        intro _
        have hprint : (telling n).Does .monitor A Undead (printMessage (philo n i) "died")
            fun _ => Undead := by
          rw [printMessage_eq]
          refine does_bind (fun _ => Undead) (does_read telling_sound undead_stable fun _ => id)
            fun now => ?_
          exact does_bind (fun _ => Undead) (does_read telling_sound undead_stable fun _ => id)
            fun start => printDied_undead
        apply does_bind _ hprint
        intro _
        apply does_bind _ (does_acquire undead_stable)
        intro _
        refine does_bind (fun _ _ => True)
          (does_write undead_stable fun table _ => ⟨guar_dead, trivial⟩) fun _ => ?_
        apply does_bind _ (does_release true_stable)
        intro _
        exact does_pure fun _ _ hzero => absurd hzero (by decide)
      · exact does_bind _ (does_release undead_stable) fun _ => ih

/-- The philosophers before `i` were found to have had all their rounds. -/
structure Sated (i : Nat) (table : Table) : Prop where
  undead : Undead table
  limited : table.rounds ≠ -1
  meals : ∀ j, j < i → table.rounds ≤ table.meals j

theorem sated_stable {i : Nat} : (telling n).Stable .monitor (Sated i) := by
  intro x y hy hx
  refine ⟨undead_stable hy hx.undead, ?_, fun j hj => ?_⟩
  · rw [hy.1.rounds]
    exact hx.limited
  · rw [hy.1.rounds]
    exact (hx.meals j hj).trans (hy.1.meals j)

/-- No line was suppressed so far, so that the meals that were found are printed. -/
private theorem guar_full {table : Table} (h : Sated n table) :
    (telling n).guar .monitor table { table with full := 1 } := by
  refine ⟨⟨rfl, id, fun _ => one_ne_zero, fun _ => le_rfl⟩, fun _ _ => ⟨rfl, rfl⟩, fun _ => rfl,
    fun hkept => ⟨hkept.scripted, Or.inl (Or.inr one_ne_zero), fun _ => ?_⟩⟩
  rcases hkept.counted with (hdead | hfull) | hcounted
  · exact absurd h.undead hdead
  · exact hkept.full hfull
  · exact ⟨h.limited, fun i hi => (h.meals i hi).trans (hcounted i hi)⟩

theorem checkIsFullFrom_undead {i left : Nat} (hi : i + left = n) :
    (telling n).Does .monitor A (Sated i) (checkIsFullFrom i left) fun _ => Undead := by
  induction left generalizing i with
  | zero =>
      obtain rfl : i = n := hi
      apply does_bind _ (does_acquire sated_stable)
      intro _
      refine does_bind (fun _ => Undead)
        (does_write sated_stable fun table h => ⟨guar_full h, h.undead⟩) fun _ => ?_
      exact does_bind _ (does_release undead_stable) fun _ => does_pure fun _ => id
  | succ left ih =>
      apply does_bind _ (does_acquire sated_stable)
      intro _
      refine does_bind (fun (meals : Int) table => Sated i table ∧ meals ≤ table.meals i)
        (does_read telling_sound sated_stable fun table h => ⟨h, le_rfl⟩) fun meals => ?_
      have hmeals : (telling n).Stable .monitor fun table =>
          Sated i table ∧ meals ≤ table.meals i :=
        fun hy hx => ⟨sated_stable hy hx.1, hx.2.trans (hy.1.meals i)⟩
      refine does_bind (fun (rounds : Int) table => Sated i table ∧ (rounds ≤ meals →
        table.rounds ≤ table.meals i)) (does_read telling_sound hmeals fun table h =>
          ⟨h.1, fun hle => hle.trans h.2⟩) fun rounds => ?_
      split
      · refine does_bind (fun _ => Undead)
          ((does_release undead_stable).mono (fun _ h => h.1.undead) fun _ _ => id) fun _ => ?_
        exact does_pure fun _ => id
      · next hrounds =>
          refine does_bind _ ((does_release sated_stable).mono (fun table h => ?_) fun _ _ => id)
            fun _ => ih (by omega)
          refine ⟨h.1.undead, h.1.limited, fun j hj => ?_⟩
          rcases Nat.lt_succ_iff_lt_or_eq.mp hj with hlt | rfl
          · exact h.1.meals j hlt
          · exact h.2 (not_lt.mp hrounds)

theorem checkIsFull_undead :
    (telling n).Does .monitor A Undead (checkIsFull n) fun _ => Undead := by
  apply does_bind _ (does_acquire undead_stable)
  intro _
  refine does_bind (fun (rounds : Int) table => Undead table ∧ table.rounds = rounds)
    (does_read telling_sound undead_stable fun table h => ⟨h, rfl⟩) fun rounds => ?_
  split
  · refine does_bind (fun _ => Undead)
      ((does_release undead_stable).mono (fun _ h => h.1) fun _ _ => id) fun _ => ?_
    exact does_pure fun _ => id
  · next hrounds =>
      refine does_bind _ ((does_release sated_stable).mono (fun table h => ?_) fun _ _ => id)
        fun _ => checkIsFullFrom_undead (Nat.zero_add n)
      exact ⟨h.1, fun heq => hrounds (h.2.symm.trans heq), fun j hj => absurd hj (Nat.not_lt_zero j)⟩

theorem monitorLoop_undead : (telling n).Rounds .monitor Undead Undead (monitorLoop n) := by
  apply does_bind _ checkIsDeadFrom_undead
  intro dead
  split
  · exact does_pure fun _ _ hagain => absurd hagain (by decide)
  · next hdead =>
      refine does_bind _ (checkIsFull_undead.mono (fun _ h => h (not_not.mp hdead)) fun _ _ => id)
        fun full => ?_
      split
      · exact does_pure fun _ _ hagain => absurd hagain (by decide)
      · exact does_pure fun _ h _ => h

theorem monitorStart_undead : (telling n).Rounds .monitor Undead Undead monitorStart :=
  does_bind _ (ftUsleep_does undead_stable) fun _ => does_pure fun _ h _ => h

end Monitor

section Runs

variable {n : Nat} {table : Table} {trace : List (ThreadId n × Action Mutex)}
  {c : Config (ThreadId n) Mutex Table}

/-- A table that is just laid. -/
structure Laid (table : Table) : Prop where
  dead : table.dead = 0
  full : table.full = 0
  meals : ∀ i, table.meals i = 0
  printed : table.printed = []

private theorem lines_nil (id : Nat) : lines id [] = [] := rfl

private def roundFrom : ThreadId n → Table → Prop
  | .philo i => fun table => ∃ k, Ready i k table
  | .monitor => Undead

theorem kept_of_run (hn : 2 ≤ n) (hlaid : Laid table)
    (hrun : Run Tick (startConfig n table) trace c) :
    Kept n c.shared ∧ c.shared.rounds = table.rounds := by
  have hready : ∀ i : Fin n, Ready i 0 table :=
    fun i => ⟨hlaid.meals i, Or.inl (by rw [hlaid.printed, lines_nil, if_pos rfl])⟩
  have hkept : Kept n table := by
    refine ⟨fun i _ => ⟨0, ?_⟩, Or.inr fun i _ => ?_, fun hfull => absurd hlaid.full hfull⟩
    · rw [hlaid.printed, lines_nil]
      exact List.nil_prefix
    · rw [hlaid.meals i]
      exact Int.natCast_nonneg _
  refine holds_of_run telling_sound (disciplined_start hn table) (A := roundFrom) (P := roundFrom)
    (fun t => ?_) (fun t => ?_) (fun t => ?_) (fun t => ?_)
    (I := fun later => Kept n later ∧ later.rounds = table.rounds)
    (fun hguar h => ⟨hguar.2.2.2 h.1, hguar.1.rounds.trans h.2⟩) (fun htick h => ?_)
    ⟨hkept, rfl⟩ hrun
  · cases t with
    | philo i =>
        intro x y hy hx
        obtain ⟨k, hk⟩ := hx
        exact ⟨k, told_stable hy hk⟩
    | monitor => exact undead_stable
  · cases t with
    | philo i => exact ⟨0, hready i⟩
    | monitor => exact hlaid.dead
  · cases t with
    | philo i => exact routineStart_told
    | monitor => exact monitorStart_undead
  · cases t with
    | philo i => exact routineLoop_told
    | monitor => exact monitorLoop_undead
  · obtain ⟨time, -, rfl⟩ := htick
    exact ⟨⟨h.1.scripted, h.1.counted, h.1.full⟩, h.2⟩

private def oneRound : Table := ⟨800, 200, 200, 0, 1, 0, 0, fun _ => 0, fun _ => 0, 0, []⟩

set_option maxRecDepth 4000 in
/-- Two philosophers eat once, and the monitor sees it. -/
private theorem oneRound_played : ∃ trace c, Run Tick (startConfig 2 oneRound) trace c ∧
    c.shared.full = 1 ∧ c.shared.printed =
      [(0, 2, "has taken a fork"), (0, 2, "has taken a fork"), (0, 2, "is eating"),
        (0, 1, "is thinking"), (400, 2, "is sleeping"), (400, 1, "has taken a fork"),
        (400, 1, "has taken a fork"), (400, 1, "is eating")] := by
  have hplay : ∃ c, play (fun _ _ => true) (fun _ => true) (startConfig 2 oneRound)
      ([.inl .monitor] ++ List.replicate 55 (.inl (.philo 1)) ++
        List.replicate 18 (.inl (.philo 0)) ++ [.inr 400] ++
        List.replicate 20 (.inl (.philo 1)) ++ List.replicate 50 (.inl (.philo 0)) ++
        List.replicate 24 (.inl .monitor)) = some c ∧
        c.shared.full = 1 ∧ c.shared.printed =
          [(0, 2, "has taken a fork"), (0, 2, "has taken a fork"), (0, 2, "is eating"),
            (0, 1, "is thinking"), (400, 2, "is sleeping"), (400, 1, "has taken a fork"),
            (400, 1, "has taken a fork"), (400, 1, "is eating")] :=
    ⟨_, rfl, by decide, by decide⟩
  obtain ⟨c, hplay, hc⟩ := hplay
  obtain ⟨trace, hrun⟩ : ∃ trace, Run Tick (startConfig 2 oneRound) trace c :=
    run_of_play (fun table time hle _ => ⟨time, hle, rfl⟩) hplay
  exact ⟨trace, c, hrun, hc⟩

private theorem laid_oneRound : Laid oneRound := ⟨rfl, rfl, fun _ => rfl, rfl⟩

/-- In every run, each philosopher's lines are the first ones of his meals. -/
theorem lines_of_run (hn : 2 ≤ n) (hlaid : Laid table)
    (hrun : Run Tick (startConfig n table) trace c) (i : Fin n) :
    ∃ meals, lines (i.val + 1) c.shared.printed <+: script (i.val + 1) meals :=
  (kept_of_run hn hlaid hrun).1.scripted i i.isLt

theorem lines_of_run_oneRound : ∃ printed : List (Nat × Nat × String),
    lines 1 printed = ["is thinking", "has taken a fork", "has taken a fork", "is eating"] ∧
      ∃ meals, lines 1 printed <+: script 1 meals := by
  obtain ⟨trace, c, hrun, -, hprinted⟩ := oneRound_played
  refine ⟨c.shared.printed, ?_, lines_of_run le_rfl laid_oneRound hrun 0⟩
  rw [hprinted]
  rfl

end Runs

end FortyTwo.Philosophers
