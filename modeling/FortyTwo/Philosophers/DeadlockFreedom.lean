import FortyTwo.Philosophers.Routine

/-!
Each philosopher takes his forks, and each thread its mutexes, in the order of one
rank. So no circle of threads waits, and neighbours do not eat together.
-/

namespace FortyTwo.Philosophers

open Foundation Foundation.Prog

/-- A fork of even number is taken before one of odd number; of the even ones the
first and the last of an odd table meet in one philosopher. -/
def rank (n : Nat) : Mutex → Nat
  | .fork i => if i % 2 = 1 then 2 else if i + 1 = n then 1 else 0
  | .deadmutex => 3
  | .mealmutex => 4

def firstFork (philo : Philo) : Mutex := if philo.id % 2 = 0 then philo.rfork else philo.lfork

def secondFork (philo : Philo) : Mutex := if philo.id % 2 = 0 then philo.lfork else philo.rfork

/-- A thread locks by rank, and a philosopher takes his second fork when he has the
first. -/
def may (n : Nat) (t : ThreadId n) (held : Set Mutex) (m : Mutex) : Prop :=
  (∀ m' ∈ held, rank n m' < rank n m) ∧
    ∀ i, t = .philo i → m = secondFork (philo n i) → firstFork (philo n i) ∈ held

def OnlyForks (held : Set Mutex) : Prop := ∀ m ∈ held, ∃ i, m = .fork i

section Safe

variable {n : Nat} {t : ThreadId n} {held : Set Mutex}

private theorem rank_fork_le (n i : Nat) : rank n (.fork i) ≤ 2 := by
  simp only [rank]
  split_ifs <;> omega

theorem firstFork_philo (n i : Nat) : firstFork (philo n i) =
    .fork (if (i + 1) % 2 = 0 then if i = 0 then n - 1 else i - 1 else i) := by
  by_cases h : (i + 1) % 2 = 0 <;> simp [firstFork, philo, h]

theorem secondFork_philo (n i : Nat) : secondFork (philo n i) =
    .fork (if (i + 1) % 2 = 0 then i else if i = 0 then n - 1 else i - 1) := by
  by_cases h : (i + 1) % 2 = 0 <;> simp [secondFork, philo, h]

theorem rank_firstFork_lt {i : Nat} (hn : 2 ≤ n) (hi : i < n) :
    rank n (firstFork (philo n i)) < rank n (secondFork (philo n i)) := by
  simp only [firstFork_philo, secondFork_philo, rank]
  split_ifs <;> omega

private theorem secondFork_ne (n i : Nat) :
    secondFork (philo n i) ≠ .deadmutex ∧ secondFork (philo n i) ≠ .mealmutex := by
  rw [secondFork_philo]
  exact ⟨Mutex.noConfusion, Mutex.noConfusion⟩

private theorem OnlyForks.may_dead (h : OnlyForks held) : may n t held .deadmutex := by
  refine ⟨fun m hm => ?_, fun i _ heq => absurd heq.symm (secondFork_ne n i).1⟩
  obtain ⟨i, rfl⟩ := h m hm
  have hle := rank_fork_le n i
  simp only [rank] at hle ⊢
  omega

private theorem OnlyForks.may_meal (h : OnlyForks held) : may n t held .mealmutex := by
  refine ⟨fun m hm => ?_, fun i _ heq => absurd heq.symm (secondFork_ne n i).2⟩
  obtain ⟨i, rfl⟩ := h m hm
  have hle := rank_fork_le n i
  simp only [rank] at hle ⊢
  omega

private theorem OnlyForks.may_both (h : OnlyForks held) :
    may n t (insert .deadmutex held) .mealmutex := by
  refine ⟨fun m hm => ?_, fun i _ heq => absurd heq.symm (secondFork_ne n i).2⟩
  rcases Set.mem_insert_iff.mp hm with rfl | hm
  · simp [rank]
  · exact (h.may_meal (t := t)).1 m hm

private theorem OnlyForks.notMem (h : OnlyForks held) :
    Mutex.deadmutex ∉ held ∧ Mutex.mealmutex ∉ held := by
  refine ⟨fun hm => ?_, fun hm => ?_⟩
  · obtain ⟨i, hi⟩ := h _ hm
    cases hi
  · obtain ⟨i, hi⟩ := h _ hm
    cases hi

theorem printMessage_safe {p : Philo} {message : String} {post : Set Mutex → Unit → Prop}
    (h : OnlyForks held) (hpost : post held ()) :
    (printMessage p message).Safe (may n t) held post := by
  have hnot := h.notMem
  have hmeal : (insert .mealmutex (insert .deadmutex held) : Set Mutex) \ {.mealmutex} =
      insert .deadmutex held := Set.insert_sdiff_self_of_notMem (by simp [hnot.2])
  have hdead : (insert .deadmutex held : Set Mutex) \ {.deadmutex} = held :=
    Set.insert_sdiff_self_of_notMem hnot.1
  simp only [printMessage, getTime, safe_bind]
  apply safe_read
  intro now
  apply safe_read
  intro start
  refine safe_acquire.mpr ⟨h.may_dead, safe_acquire.mpr ⟨h.may_both, ?_⟩⟩
  apply safe_read
  intro dead
  apply safe_read
  intro full
  have hend : (release Mutex.mealmutex >>= fun _ => release Mutex.deadmutex : Code Unit).Safe
      (may n t) (insert .mealmutex (insert .deadmutex held)) post := by
    rw [safe_bind, safe_release, safe_release, hmeal, hdead]
    exact ⟨Set.mem_insert _ _, Set.mem_insert _ _, hpost⟩
  split
  · exact safe_bind.mpr (safe_write hend)
  · exact hend

theorem ftUsleep_safe {mseconds : Nat} {post : Set Mutex → Unit → Prop} (hpost : post held ()) :
    (ftUsleep mseconds).Safe (may n t) held post := by
  simp only [ftUsleep, getTime, safe_bind]
  exact safe_read fun _ => safe_sleep.mpr hpost

theorem deadOrFull_safe {post : Set Mutex → Int → Prop} (h : OnlyForks held)
    (hpost : ∀ result, post held result) : deadOrFull.Safe (may n t) held post := by
  have hnot := h.notMem
  have hdead : (insert .mealmutex (insert .deadmutex held) : Set Mutex) \ {.deadmutex} =
      insert .mealmutex held := by
    rw [Set.insert_comm]
    exact Set.insert_sdiff_self_of_notMem (by simp [hnot.1])
  have hmeal : (insert .mealmutex held : Set Mutex) \ {.mealmutex} = held :=
    Set.insert_sdiff_self_of_notMem hnot.2
  simp only [deadOrFull, safe_bind]
  refine safe_acquire.mpr ⟨h.may_dead, safe_acquire.mpr ⟨h.may_both, ?_⟩⟩
  apply safe_read
  intro dead
  apply safe_read
  intro full
  rw [safe_release, hdead, safe_release, hmeal]
  exact ⟨Set.mem_insert_of_mem _ (Set.mem_insert _ _), Set.mem_insert _ _, hpost _⟩

theorem takeFork_safe {p : Philo} {i : Nat} {post : Set Mutex → Int → Prop} (h : OnlyForks held)
    (hmay : may n t held (.fork i)) (hfail : post held 1)
    (htaken : post (insert (.fork i) held) 0) :
    (takeFork p (.fork i)).Safe (may n t) held post := by
  have hmore : OnlyForks (insert (.fork i) held) := by
    intro m hm
    rcases Set.mem_insert_iff.mp hm with rfl | hm
    · exact ⟨i, rfl⟩
    · exact h m hm
  simp only [takeFork, safe_bind]
  apply deadOrFull_safe h
  intro result
  split
  · exact hfail
  · simp only [safe_bind]
    exact safe_acquire.mpr ⟨hmay, printMessage_safe hmore htaken⟩

theorem startLate_safe {p : Philo} {post : Set Mutex → Unit → Prop} (h : OnlyForks held)
    (hpost : post held ()) : (startLate p).Safe (may n t) held post := by
  rw [startLate]
  split
  · simp only [safe_bind]
    apply safe_read
    intro meals
    split
    · simp only [safe_bind]
      exact printMessage_safe h (safe_read fun _ => ftUsleep_safe hpost)
    · exact hpost
  · exact hpost

private theorem onlyForks_empty : OnlyForks ∅ := fun _ hm => absurd hm (Set.notMem_empty _)

private theorem onlyForks_singleton (i : Nat) : OnlyForks {.fork i} :=
  fun _ hm => ⟨i, Set.mem_singleton_iff.mp hm⟩

theorem takeForks_safe {i : Fin n} {post : Set Mutex → Int → Prop} (hn : 2 ≤ n)
    (hfail : post ∅ 1)
    (htaken : post {secondFork (philo n i), firstFork (philo n i)} 0) :
    (takeForks (philo n i)).Safe (may n (.philo i)) ∅ post := by
  have hlt := rank_firstFork_lt hn i.isLt
  -- taking two forks, and putting the first back when there is no second
  have hboth : ∀ first second, firstFork (philo n i) = .fork first →
      secondFork (philo n i) = .fork second →
      (takeFork (philo n i) (.fork first)).Safe (may n (.philo i)) ∅ (fun H result =>
        (if result ≠ 0 then pure 1 else takeFork (philo n i) (.fork second) >>= fun result =>
          if result ≠ 0 then release (.fork first) >>= fun _ => pure 1 else pure 0 : Code Int).Safe
            (may n (.philo i)) H post) := by
    intro first second hfirst hsecond
    rw [hfirst, hsecond] at hlt htaken
    have hne : Mutex.fork first ≠ .fork second := fun heq => by rw [heq] at hlt; omega
    refine takeFork_safe onlyForks_empty ⟨fun _ hm => absurd hm (Set.notMem_empty _), ?_⟩ ?_ ?_
    · intro j hj heq
      cases hj
      exact absurd (heq.trans hsecond) hne
    · exact hfail
    · rw [if_neg (by decide), safe_bind]
      refine takeFork_safe (by simpa using onlyForks_singleton first) ⟨?_, ?_⟩ ?_ ?_
      · intro m hm
        obtain rfl : m = .fork first := by simpa using hm
        exact hlt
      · intro j hj _
        cases hj
        simp [hfirst]
      · rw [if_pos (by decide), safe_bind, safe_release]
        exact ⟨by simp, safe_pure.mpr (by simpa using hfail)⟩
      · rw [if_neg (by decide)]
        exact safe_pure.mpr (by simpa using htaken)
  rw [takeForks, safe_bind]
  apply startLate_safe onlyForks_empty
  split
  · next heven =>
      rw [safe_bind]
      exact hboth _ _ (if_pos heven) (if_pos heven)
  · next hodd =>
      rw [safe_bind]
      exact hboth _ _ (if_neg hodd) (if_neg hodd)

private theorem forks_eq (p : Philo) :
    ({secondFork p, firstFork p} : Set Mutex) = {p.lfork, p.rfork} := by
  unfold secondFork firstFork
  split
  · rfl
  · exact Set.pair_comm _ _

private theorem rfork_ne_lfork {i : Fin n} (hn : 2 ≤ n) :
    (philo n i).rfork ≠ (philo n i).lfork := by
  intro heq
  have hlt := rank_firstFork_lt hn i.isLt
  unfold firstFork secondFork at hlt
  rw [heq] at hlt
  simp at hlt

theorem postpone_safe {p : Philo} {post : Set Mutex → Unit → Prop} (hpost : post held ()) :
    (postpone p).Safe (may n t) held post := by
  simp only [postpone, getTime, safe_bind]
  exact safe_read fun _ => safe_read fun _ => safe_write hpost

theorem eat_safe {i : Fin n} {post : Set Mutex → Int → Prop} (hn : 2 ≤ n)
    (hpost : ∀ result, post ∅ result) :
    (eat (philo n i)).Safe (may n (.philo i)) ∅ post := by
  have hforks : OnlyForks {(philo n i).lfork, (philo n i).rfork} := by
    rintro m (rfl | rfl)
    · exact ⟨_, rfl⟩
    · exact ⟨_, rfl⟩
  have hmeal : (insert .mealmutex {(philo n i).lfork, (philo n i).rfork} : Set Mutex) \
      {.mealmutex} = {(philo n i).lfork, (philo n i).rfork} :=
    Set.insert_sdiff_self_of_notMem hforks.notMem.2
  have hleft : ({(philo n i).lfork, (philo n i).rfork} : Set Mutex) \ {(philo n i).lfork} =
      {(philo n i).rfork} := Set.insert_sdiff_self_of_notMem (by simp [(rfork_ne_lfork hn).symm])
  rw [eat, safe_bind]
  refine takeForks_safe hn (hpost _) ?_
  rw [if_neg (by decide), forks_eq]
  simp only [safe_bind]
  refine printMessage_safe hforks (safe_acquire.mpr ⟨hforks.may_meal, ?_⟩)
  refine safe_write (postpone_safe ?_)
  rw [safe_release, hmeal]
  refine ⟨Set.mem_insert _ _, safe_read fun _ => ftUsleep_safe ?_⟩
  rw [safe_release, hleft, safe_release, Set.sdiff_self]
  exact ⟨Set.mem_insert _ _, Set.mem_singleton _, hpost _⟩

theorem philoSleep_safe {p : Philo} {post : Set Mutex → Int → Prop}
    (hpost : ∀ result, post ∅ result) : (philoSleep p).Safe (may n t) ∅ post := by
  rw [philoSleep, safe_bind]
  apply deadOrFull_safe onlyForks_empty
  intro result
  split
  · exact hpost _
  · simp only [safe_bind]
    exact printMessage_safe onlyForks_empty (safe_read fun _ => ftUsleep_safe (hpost _))

private theorem releaseMeal_safe {post : Set Mutex → Unit → Prop} (hpost : post ∅ ()) :
    (release Mutex.mealmutex : Code Unit).Safe (may n t) {.mealmutex} post := by
  rw [safe_release, Set.sdiff_self]
  exact ⟨Set.mem_singleton _, hpost⟩

private theorem acquireMeal_safe {post : Set Mutex → Unit → Prop}
    (hpost : post {.mealmutex} ()) :
    (acquire Mutex.mealmutex : Code Unit).Safe (may n t) ∅ post := by
  rw [safe_acquire, insert_empty_eq]
  exact ⟨onlyForks_empty.may_meal, hpost⟩

theorem routineLoop_safe {i : Fin n} (hn : 2 ≤ n) :
    (routineLoop (philo n i)).Safe (may n (.philo i)) ∅ fun H _ => H = ∅ := by
  rw [routineLoop, safe_bind]
  apply eat_safe hn
  intro result
  split
  · exact rfl
  · rw [safe_bind]
    apply philoSleep_safe
    intro result
    split
    · exact rfl
    · rw [safe_bind]
      apply deadOrFull_safe onlyForks_empty
      intro result
      split
      · exact rfl
      · exact rfl

theorem routineStart_safe (p : Philo) :
    (routineStart p).Safe (may n t) ∅ fun H _ => H = ∅ := by
  simp only [routineStart, safe_bind]
  exact acquireMeal_safe (postpone_safe (releaseMeal_safe rfl))

theorem checkIsDeadFrom_safe {i left : Nat} {post : Set Mutex → Int → Prop}
    (hpost : ∀ result, post ∅ result) : (checkIsDeadFrom n i left).Safe (may n t) ∅ post := by
  induction left generalizing i with
  | zero => exact hpost _
  | succ left ih =>
      rw [checkIsDeadFrom]
      simp only [getTime, safe_bind]
      refine acquireMeal_safe (safe_read fun now => safe_read fun lastMeal => ?_)
      split
      · simp only [safe_bind]
        refine releaseMeal_safe (printMessage_safe onlyForks_empty ?_)
        rw [safe_acquire, insert_empty_eq]
        refine ⟨onlyForks_empty.may_dead, safe_write ?_⟩
        rw [safe_release, Set.sdiff_self]
        exact ⟨Set.mem_singleton _, hpost _⟩
      · rw [safe_bind]
        exact releaseMeal_safe ih

theorem checkIsFullFrom_safe {i left : Nat} {post : Set Mutex → Int → Prop}
    (hpost : ∀ result, post ∅ result) : (checkIsFullFrom i left).Safe (may n t) ∅ post := by
  induction left generalizing i with
  | zero =>
      rw [checkIsFullFrom]
      simp only [safe_bind]
      exact acquireMeal_safe (safe_write (releaseMeal_safe (hpost _)))
  | succ left ih =>
      rw [checkIsFullFrom]
      simp only [safe_bind]
      refine acquireMeal_safe (safe_read fun meals => safe_read fun rounds => ?_)
      split
      · rw [safe_bind]
        exact releaseMeal_safe (hpost _)
      · rw [safe_bind]
        exact releaseMeal_safe ih

theorem checkIsFull_safe {post : Set Mutex → Int → Prop} (hpost : ∀ result, post ∅ result) :
    (checkIsFull n).Safe (may n t) ∅ post := by
  simp only [checkIsFull, safe_bind]
  refine acquireMeal_safe (safe_read fun rounds => ?_)
  split
  · rw [safe_bind]
    exact releaseMeal_safe (hpost _)
  · rw [safe_bind]
    exact releaseMeal_safe (checkIsFullFrom_safe hpost)

theorem monitorLoop_safe : (monitorLoop n).Safe (may n t) ∅ fun H _ => H = ∅ := by
  rw [monitorLoop, safe_bind]
  apply checkIsDeadFrom_safe
  intro result
  split
  · exact rfl
  · rw [safe_bind]
    apply checkIsFull_safe
    intro result
    split
    · exact rfl
    · exact rfl

end Safe

theorem disciplined_start {n : Nat} (hn : 2 ≤ n) (table : Table) :
    Disciplined (may n) (startConfig n table) := by
  have hheld : ∀ t, (startConfig n table).held t = ∅ := fun t =>
    Set.eq_empty_of_forall_notMem fun m hm => by cases hm
  intro t
  rw [hheld]
  cases t with
  | philo i => exact ⟨routineStart_safe _, routineLoop_safe hn⟩
  | monitor => exact ⟨safe_bind.mpr (ftUsleep_safe rfl), monitorLoop_safe⟩

/-- In the trace, the philosopher `i` has taken his second fork, and released
neither of his forks since. -/
def Eating {n : Nat} (trace : List (ThreadId n × Action Mutex)) (i : Fin n) : Prop :=
  LockedSince trace (.philo i) (secondFork (philo n i))
    {(philo n i).lfork, (philo n i).rfork}

/-- Philosophers that sit side by side at the table. -/
def Neighbours {n : Nat} (i j : Fin n) : Prop :=
  i ≠ j ∧ (j.val = (i.val + 1) % n ∨ i.val = (j.val + 1) % n)

theorem owns_forks {n : Nat} (hn : 2 ≤ n) {table : Table}
    {trace : List (ThreadId n × Action Mutex)} {c : Config (ThreadId n) Mutex Table}
    (hrun : Run Tick (startConfig n table) trace c) {i : Fin n} (h : Eating trace i) :
    c.owner (philo n i).lfork = some (.philo i) ∧ c.owner (philo n i).rfork = some (.philo i) := by
  have howner := owner_of_lockedSince (disciplined_start hn table) hrun (fun H hmay m hm => ?_) h
  · exact ⟨howner _ (Set.mem_insert _ _), howner _ (Set.mem_insert_of_mem _ rfl)⟩
  · have hfirst := hmay.2 i rfl rfl
    rw [← forks_eq] at hm
    rcases hm with rfl | rfl
    · exact Or.inl rfl
    · exact Or.inr hfirst

/-- The right fork of the next philosopher is the left fork of the one before him. -/
theorem rfork_next {n : Nat} {i j : Fin n} (h : j.val = (i.val + 1) % n) :
    (philo n j).rfork = (philo n i).lfork := by
  change Mutex.fork (if j.val = 0 then n - 1 else j.val - 1) = Mutex.fork i.val
  congr 1
  have hi := i.isLt
  rcases Nat.lt_or_ge (i.val + 1) n with hlt | hge
  · rw [Nat.mod_eq_of_lt hlt] at h
    split_ifs <;> omega
  · have heq : i.val + 1 = n := by omega
    rw [heq, Nat.mod_self] at h
    rw [if_pos h]
    omega

/-- However the threads and the clock go on, neighbours do not eat together, and
the threads are never all waiting for mutexes. -/
theorem exclusion_and_no_deadlock {n : Nat} (hn : 2 ≤ n) (table : Table)
    {trace : List (ThreadId n × Action Mutex)} {c : Config (ThreadId n) Mutex Table}
    (hrun : Run Tick (startConfig n table) trace c) :
    (∀ i j, Neighbours i j → ¬ (Eating trace i ∧ Eating trace j)) ∧ ¬ c.Deadlock := by
  constructor
  · rintro i j ⟨hne, hnext⟩ ⟨hi, hj⟩
    have howni := owns_forks hn hrun hi
    have hownj := owns_forks hn hrun hj
    rcases hnext with hnext | hnext
    · have hshared := hownj.2
      rw [rfork_next hnext, howni.1] at hshared
      exact hne (by simpa using hshared)
    · have hshared := howni.2
      rw [rfork_next hnext, hownj.1] at hshared
      exact hne (by simpa using hshared.symm)
  · refine ((disciplined_start hn table).run hrun).not_deadlock (rank n) 4 (fun m => ?_)
      fun t H m hmay => hmay.1
    cases m with
    | fork i => exact (rank_fork_le n i).trans (by decide)
    | deadmutex => exact Nat.le_succ 3
    | mealmutex => exact le_rfl

theorem exclusion_and_no_deadlock_two :
    ∃ c, Run Tick (startConfig 2 ⟨800, 200, 200, 0, -1, 0, 0, fun _ => 0, fun _ => 0, 0, []⟩)
        [(.philo 0, .lock .mealmutex)] c ∧
      (∀ i j : Fin 2, Neighbours i j → ¬ (Eating [(.philo 0, .lock .mealmutex)] i ∧
        Eating [(.philo 0, .lock .mealmutex)] j)) ∧ ¬ c.Deadlock :=
  ⟨_, Run.step Run.start (Step.lock rfl rfl),
    exclusion_and_no_deadlock le_rfl _ (Run.step Run.start (Step.lock rfl rfl))⟩

end FortyTwo.Philosophers
