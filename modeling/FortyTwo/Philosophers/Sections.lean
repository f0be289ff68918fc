import FortyTwo.Foundation.RelyGuarantee
import FortyTwo.Philosophers.DeadlockFreedom

/-!
The threads of the table as the sections that they lock, with what is not a section
in between. A contract that the sections keep is kept by all of `routine`.
-/

namespace FortyTwo.Philosophers

open Foundation Foundation.Prog Foundation.Contract

/-- `print_message` from its first lock on. -/
def printSection (philo : Philo) (message : String) (time : Nat) : Code Unit := do
  acquire .deadmutex
  acquire .mealmutex
  let dead ← read (·.dead)
  let full ← read (·.full)
  if dead = 0 ∧ full = 0 then
    write fun table => { table with printed := table.printed ++ [(time, philo.id, message)] }
  release .mealmutex
  release .deadmutex

theorem printMessage_eq (philo : Philo) (message : String) :
    printMessage philo message = getTime >>= fun now => read (·.start) >>= fun start =>
      printSection philo message (sizeSub now start) := rfl

/-- What `eat` does under `mealmutex`. -/
def mealSection (philo : Philo) : Code Unit := do
  acquire .mealmutex
  write fun table =>
    { table with meals :=
        Function.update table.meals philo.index (table.meals philo.index + 1) }
  postpone philo
  release .mealmutex

theorem eat_eq (philo : Philo) : eat philo = do
    if (← takeForks philo) ≠ 0 then return 1
    printMessage philo "is eating"
    mealSection philo
    let timeToEat ← read (·.timeToEat)
    ftUsleep timeToEat
    release philo.lfork
    release philo.rfork
    return 0 := rfl

section Tidy

variable {n : Nat} {G : Type} {K : Contract (ThreadId n) Mutex Table G} {t : ThreadId n}
  {A : Table × G → Prop} {P : Set Mutex → Table × G → Prop}
  {environment : Table → Table → Prop} {p : Philo}

/-- What a thread may carry through its locks and unlocks. -/
structure Carried (K : Contract (ThreadId n) Mutex Table G) (t : ThreadId n)
    (P : Set Mutex → Table × G → Prop) : Prop where
  stable : K.Stable t P
  insert : ∀ {m H x}, P H x → P (insert m H) x
  erase : ∀ {m H x}, P H x → P (H \ {m}) x

theorem carried_true : Carried K t fun _ _ => True := ⟨fun _ _ => trivial, id, id⟩

theorem ftUsleep_tidy (hK : K.Sound environment) (hP : K.Stable t P) {mseconds : Nat} :
    K.Tidy t A P (ftUsleep mseconds) :=
  tidy_bind (tidy_read hK hP) fun _ => tidy_sleep hK hP

/-- The end of `check_is_dead`, once the death is printed. -/
theorem setDead_triple (hinv : ∀ x, K.inv .deadmutex x) (hwrite : ∀ H x, .deadmutex ∈ H →
      K.guar t H x (K.noted t H x { x.1 with dead := 1 })) :
    K.Triple t A (fun _ _ => True)
      (do
        acquire .deadmutex
        write fun table => { table with dead := 1 }
        release .deadmutex
        return (1 : Int))
      fun result _ _ => result = 1 := by
  refine triple_bind (fun _ H _ => .deadmutex ∈ H)
    (triple_acquire fun _ _ _ _ _ _ => Set.mem_insert _ _) fun _ => ?_
  refine triple_bind (fun _ _ _ => True)
    (triple_write fun H x y hm _ => ⟨hwrite H y hm, trivial⟩) fun _ => ?_
  exact triple_bind (fun _ _ _ => True) (triple_release fun _ _ y _ _ _ => ⟨hinv y, trivial⟩)
    fun _ => triple_pure fun _ _ _ => rfl

variable (hK : K.Sound environment) (hP : Carried K t P)
include hK hP

theorem acquire_tidy {m : Mutex} : K.Tidy t A P (acquire m) :=
  tidy_acquire hK hP.stable fun _ _ => hP.insert

theorem release_tidy {m : Mutex} : K.Tidy t A P (release m) :=
  tidy_release hK hP.stable fun _ _ => hP.erase

theorem deadOrFull_tidy : K.Tidy t A P deadOrFull := by
  apply tidy_bind (acquire_tidy hK hP)
  intro _
  apply tidy_bind (acquire_tidy hK hP)
  intro _
  apply tidy_bind (tidy_read hK hP.stable)
  intro dead
  apply tidy_bind (tidy_read hK hP.stable)
  intro full
  exact tidy_bind (release_tidy hK hP) fun _ => tidy_bind (release_tidy hK hP) fun _ => tidy_pure

theorem printMessage_tidy {message : String}
    (hsection : ∀ time, K.Tidy t A P (printSection p message time)) :
    K.Tidy t A P (printMessage p message) := by
  rw [printMessage_eq]
  exact tidy_bind (tidy_read hK hP.stable) fun now =>
    tidy_bind (tidy_read hK hP.stable) fun start => hsection _

theorem checkIsFullFrom_tidy {i left : Nat}
    (hfull : K.Tidy t A P (write fun table => { table with full := 1 })) :
    K.Tidy t A P (checkIsFullFrom i left) := by
  induction left generalizing i with
  | zero =>
      apply tidy_bind (acquire_tidy hK hP)
      intro _
      apply tidy_bind hfull
      intro _
      exact tidy_bind (release_tidy hK hP) fun _ => tidy_pure
  | succ left ih =>
      apply tidy_bind (acquire_tidy hK hP)
      intro _
      apply tidy_bind (tidy_read hK hP.stable)
      intro meals
      apply tidy_bind (tidy_read hK hP.stable)
      intro rounds
      split
      · exact tidy_bind (release_tidy hK hP) fun _ => tidy_pure
      · exact tidy_bind (release_tidy hK hP) fun _ => ih

theorem checkIsFull_tidy (hfull : K.Tidy t A P (write fun table => { table with full := 1 })) :
    K.Tidy t A P (checkIsFull n) := by
  apply tidy_bind (acquire_tidy hK hP)
  intro _
  apply tidy_bind (tidy_read hK hP.stable)
  intro rounds
  split
  · exact tidy_bind (release_tidy hK hP) fun _ => tidy_pure
  · exact tidy_bind (release_tidy hK hP) fun _ => checkIsFullFrom_tidy hK hP hfull

section Routine

variable (hprint : ∀ message time, message ≠ "died" →
  K.Tidy t A P (printSection p message time))
include hprint

theorem takeFork_tidy {fork : Mutex} : K.Tidy t A P (takeFork p fork) := by
  apply tidy_bind (deadOrFull_tidy hK hP)
  intro result
  split
  · exact tidy_pure
  · apply tidy_bind (acquire_tidy hK hP)
    intro _
    refine tidy_bind (printMessage_tidy hK hP fun time => ?_) fun _ => tidy_pure
    exact hprint _ time (by decide)

theorem startLate_tidy : K.Tidy t A P (startLate p) := by
  rw [startLate]
  split
  · apply tidy_bind (tidy_read hK hP.stable)
    intro meals
    split
    · refine tidy_bind (printMessage_tidy hK hP fun time => ?_) fun _ => ?_
      · exact hprint _ time (by decide)
      · exact tidy_bind (tidy_read hK hP.stable) fun _ => ftUsleep_tidy hK hP.stable
    · exact tidy_pure
  · exact tidy_pure

theorem takeForks_tidy : K.Tidy t A P (takeForks p) := by
  -- the second fork, or the first one back
  have hsecond : ∀ first second,
      K.Tidy t A P (do
        if (← takeFork p second) ≠ 0 then
          release first
          return (1 : Int)
        return 0) := by
    intro first second
    apply tidy_bind (takeFork_tidy hK hP hprint)
    intro result
    split
    · exact tidy_bind (release_tidy hK hP) fun _ => tidy_pure
    · exact tidy_pure
  have hboth : ∀ first second,
      K.Tidy t A P (do
        if (← takeFork p first) ≠ 0 then return (1 : Int)
        if (← takeFork p second) ≠ 0 then
          release first
          return 1
        return 0) := by
    intro first second
    apply tidy_bind (takeFork_tidy hK hP hprint)
    intro result
    split
    · exact tidy_pure
    · exact hsecond first second
  rw [takeForks]
  apply tidy_bind (startLate_tidy hK hP hprint)
  intro _
  split
  · exact hboth _ _
  · exact hboth _ _

theorem eat_tidy (hmeal : K.Tidy t A P (mealSection p)) : K.Tidy t A P (eat p) := by
  rw [eat_eq]
  apply tidy_bind (takeForks_tidy hK hP hprint)
  intro result
  split
  · exact tidy_pure
  · apply tidy_bind (printMessage_tidy hK hP fun time => hprint _ time (by decide))
    intro _
    apply tidy_bind hmeal
    intro _
    apply tidy_bind (tidy_read hK hP.stable)
    intro timeToEat
    apply tidy_bind (ftUsleep_tidy hK hP.stable)
    intro _
    exact tidy_bind (release_tidy hK hP) fun _ => tidy_bind (release_tidy hK hP) fun _ => tidy_pure

theorem philoSleep_tidy : K.Tidy t A P (philoSleep p) := by
  apply tidy_bind (deadOrFull_tidy hK hP)
  intro result
  split
  · exact tidy_pure
  · apply tidy_bind (printMessage_tidy hK hP fun time => hprint _ time (by decide))
    intro _
    apply tidy_bind (tidy_read hK hP.stable)
    intro timeToSleep
    exact tidy_bind (ftUsleep_tidy hK hP.stable) fun _ => tidy_pure

theorem routineLoop_tidy (hmeal : K.Tidy t A P (mealSection p)) :
    K.Tidy t A P (routineLoop p) := by
  apply tidy_bind (eat_tidy hK hP hprint hmeal)
  intro result
  split
  · exact tidy_pure
  · apply tidy_bind (philoSleep_tidy hK hP hprint)
    intro result
    split
    · exact tidy_pure
    · apply tidy_bind (deadOrFull_tidy hK hP)
      intro result
      split
      · exact tidy_pure
      · exact tidy_pure

end Routine

end Tidy

/-- The steps of a thread, or the times that the clock goes on to, one after the
other, where they are allowed. -/
def play {n : Nat} (allowed : ThreadId n → Table → Bool) (clock : Nat → Bool) :
    Config (ThreadId n) Mutex Table → List (ThreadId n ⊕ Nat) →
      Option (Config (ThreadId n) Mutex Table)
  | c, [] => some c
  | c, .inl t :: turns =>
      if allowed t c.shared then (c.move t).bind fun next => play allowed clock next turns
      else none
  | c, .inr time :: turns =>
      if c.shared.time ≤ time ∧ clock time then
        play allowed clock { c with shared := { c.shared with time } } turns
      else none

theorem watched_of_play {n : Nat} {G : Type} {K : Contract (ThreadId n) Mutex Table G}
    {environment : Table → Table → Prop} {allowed : ThreadId n → Table → Bool}
    {clock : Nat → Bool} (hallowed : ∀ t program x, allowed t x.1 = true → K.permit t program x)
    (hclock : ∀ (table : Table) time, table.time ≤ time → clock time = true →
      environment table { table with time })
    {start c last : Config (ThreadId n) Mutex Table} {notes g : G}
    {turns : List (ThreadId n ⊕ Nat)} (h : K.Watched environment start notes c g)
    (hplay : play allowed clock c turns = some last) :
    ∃ g, K.Watched environment start notes last g := by
  induction turns generalizing c g with
  | nil =>
      cases hplay
      exact ⟨g, h⟩
  | cons turn turns ih =>
      cases turn with
      | inl t =>
          rw [play] at hplay
          split at hplay
          · next hok =>
              obtain ⟨next, hmove, hrest⟩ := Option.bind_eq_some_iff.mp hplay
              exact ih (h.move (hallowed t _ _ hok) hmove) hrest
          · cases hplay
      | inr time =>
          rw [play] at hplay
          split at hplay
          · next hok => exact ih (h.environment (hclock _ time hok.1 hok.2)) hplay
          · cases hplay

theorem run_of_play {n : Nat} {environment : Table → Table → Prop}
    {allowed : ThreadId n → Table → Bool} {clock : Nat → Bool}
    (hclock : ∀ (table : Table) time, table.time ≤ time → clock time = true →
      environment table { table with time })
    {start last : Config (ThreadId n) Mutex Table} {turns : List (ThreadId n ⊕ Nat)}
    (hplay : play allowed clock start turns = some last) :
    ∃ trace, Run environment start trace last := by
  let K : Contract (ThreadId n) Mutex Table Unit :=
    ⟨fun _ _ _ _ _ => (), fun _ _ _ => True, fun _ _ => True, fun _ _ _ _ => True,
      fun _ _ _ _ => True⟩
  have hwatched : ∃ notes, K.Watched environment start () last notes :=
    watched_of_play (fun _ _ _ _ => trivial) hclock .start hplay
  exact hwatched.choose_spec.run

end FortyTwo.Philosophers
