import FortyTwo.Foundation.LockDiscipline

/-!
`food.c`, `check.c` and the threads of `main.c`. What a thread does between two
steps of others is one access to the table, or one lock or unlock.
-/

namespace FortyTwo.Philosophers

open Foundation Foundation.Prog

/-- `forks[i]` and the mutexes of the table that are ever locked. -/
inductive Mutex where
  | fork (i : Nat)
  | deadmutex
  | mealmutex
  deriving DecidableEq, Repr

/-- `t_table` but for the number of philosophers, with their meals and deadlines,
what the clock says and what was printed. -/
structure Table where
  timeToDie : Nat
  timeToEat : Nat
  timeToSleep : Nat
  start : Nat
  rounds : Int
  dead : Int := 0
  full : Int := 0
  meals : Nat → Int := fun _ => 0
  lastMeal : Nat → Nat := fun _ => 0
  time : Nat
  printed : List (Nat × Nat × String) := []

/-- The fields of `t_philo` that do not change. -/
structure Philo where
  index : Nat
  id : Nat
  rfork : Mutex
  lfork : Mutex

/-- The loop of `init_forks_and_philos`. -/
def philo (n i : Nat) : Philo where
  index := i
  id := i + 1
  rfork := .fork (if i = 0 then n - 1 else i - 1)
  lfork := .fork i

abbrev Code := Prog Mutex Table

/-- `a - b` of two `size_t`. -/
def sizeSub (a b : Nat) : Nat := (a + 2 ^ 64 - b) % 2 ^ 64

def sizeAdd (a b : Nat) : Nat := (a + b) % 2 ^ 64

def getTime : Code Nat := read (·.time)

def ftUsleep (mseconds : Nat) : Code Unit := do
  let start ← getTime
  sleep fun table => !decide (sizeSub table.time start < mseconds)

def printMessage (philo : Philo) (message : String) : Code Unit := do
  let now ← getTime
  let start ← read (·.start)
  acquire .deadmutex
  acquire .mealmutex
  let dead ← read (·.dead)
  let full ← read (·.full)
  if dead = 0 ∧ full = 0 then
    write fun table =>
      { table with printed := table.printed ++ [(sizeSub now start, philo.id, message)] }
  release .mealmutex
  release .deadmutex

def deadOrFull : Code Int := do
  acquire .deadmutex
  acquire .mealmutex
  let dead ← read (·.dead)
  let full ← read (·.full)
  release .deadmutex
  release .mealmutex
  return dead + full

/-- `take_right_fork` and `take_left_fork`. -/
def takeFork (philo : Philo) (fork : Mutex) : Code Int := do
  if (← deadOrFull) ≠ 0 then return 1
  acquire fork
  printMessage philo "has taken a fork"
  return 0

def takeRightFork (philo : Philo) : Code Int := takeFork philo philo.rfork

def takeLeftFork (philo : Philo) : Code Int := takeFork philo philo.lfork

/-- The wait at the start of `take_forks`, before the first meal. -/
def startLate (philo : Philo) : Code Unit := do
  if philo.id % 2 = 1 then
    let meals ← read (·.meals philo.index)
    if meals = 0 then
      printMessage philo "is thinking"
      let timeToDie ← read (·.timeToDie)
      ftUsleep (timeToDie / 2)

def takeForks (philo : Philo) : Code Int := do
  startLate philo
  if philo.id % 2 = 0 then
    if (← takeRightFork philo) ≠ 0 then return 1
    if (← takeLeftFork philo) ≠ 0 then
      release philo.rfork
      return 1
    return 0
  else
    if (← takeLeftFork philo) ≠ 0 then return 1
    if (← takeRightFork philo) ≠ 0 then
      release philo.lfork
      return 1
    return 0

/-- `philo->last_meal = get_time() + philo->table->time_to_die`. -/
def postpone (philo : Philo) : Code Unit := do
  let now ← getTime
  let timeToDie ← read (·.timeToDie)
  write fun table =>
    { table with lastMeal := Function.update table.lastMeal philo.index (sizeAdd now timeToDie) }

def eat (philo : Philo) : Code Int := do
  if (← takeForks philo) ≠ 0 then return 1
  printMessage philo "is eating"
  acquire .mealmutex
  write fun table =>
    { table with meals :=
        Function.update table.meals philo.index (table.meals philo.index + 1) }
  postpone philo
  release .mealmutex
  let timeToEat ← read (·.timeToEat)
  ftUsleep timeToEat
  release philo.lfork
  release philo.rfork
  return 0

def philoSleep (philo : Philo) : Code Int := do
  if (← deadOrFull) ≠ 0 then return 1
  printMessage philo "is sleeping"
  let timeToSleep ← read (·.timeToSleep)
  ftUsleep timeToSleep
  return 0

/-- `routine` before its loop. -/
def routineStart (philo : Philo) : Code Bool := do
  acquire .mealmutex
  postpone philo
  release .mealmutex
  return true

/-- The loop of `routine`, `false` where it breaks. -/
def routineLoop (philo : Philo) : Code Bool := do
  if (← eat philo) ≠ 0 then return false
  if (← philoSleep philo) ≠ 0 then return false
  if (← deadOrFull) ≠ 0 then return false
  return true

/-- The loop of `check_is_dead` from the philosopher `i` on, `left` more. -/
def checkIsDeadFrom (n : Nat) : Nat → Nat → Code Int
  | _, 0 => return 0
  | i, left + 1 => do
      acquire .mealmutex
      let now ← getTime
      let lastMeal ← read (·.lastMeal i)
      if now > lastMeal then
        release .mealmutex
        printMessage (philo n i) "died"
        acquire .deadmutex
        write fun table => { table with dead := 1 }
        release .deadmutex
        return 1
      release .mealmutex
      checkIsDeadFrom n (i + 1) left

def checkIsDead (n : Nat) : Code Int := checkIsDeadFrom n 0 n

def checkIsFullFrom : Nat → Nat → Code Int
  | _, 0 => do
      acquire .mealmutex
      write fun table => { table with full := 1 }
      release .mealmutex
      return 1
  | i, left + 1 => do
      acquire .mealmutex
      let meals ← read (·.meals i)
      let rounds ← read (·.rounds)
      if meals < rounds then
        release .mealmutex
        return 0
      release .mealmutex
      checkIsFullFrom (i + 1) left

def checkIsFull (n : Nat) : Code Int := do
  acquire .mealmutex
  let rounds ← read (·.rounds)
  if rounds = -1 then
    release .mealmutex
    return 0
  release .mealmutex
  checkIsFullFrom 0 n

def monitorStart : Code Bool := do
  ftUsleep 50
  return true

/-- The loop of `monitor`, `false` where it breaks. -/
def monitorLoop (n : Nat) : Code Bool := do
  if (← checkIsDead n) ≠ 0 then return false
  if (← checkIsFull n) ≠ 0 then return false
  return true

/-- The `printf` of `case_one`. -/
def announce (message : String) : Code Unit := do
  let now ← getTime
  let start ← read (·.start)
  write fun table =>
    { table with printed := table.printed ++ [(sizeSub now start, 1, message)] }

def caseOne : Code Bool := do
  let now ← getTime
  write fun table => { table with start := now }
  announce "has taken a fork"
  let timeToDie ← read (·.timeToDie)
  ftUsleep timeToDie
  announce "died"
  return false

inductive ThreadId (n : Nat) where
  | philo (i : Fin n)
  | monitor
  deriving DecidableEq

/-- The threads before any of them has run. -/
def startConfig (n : Nat) (table : Table) : Config (ThreadId n) Mutex Table where
  threads
    | .philo i => ⟨routineStart (philo n i), routineLoop (philo n i)⟩
    | .monitor => ⟨monitorStart, monitorLoop n⟩
  owner _ := none
  shared := table

/-- `main` when the table is laid: a single philosopher gets no thread. -/
def mainConfig (n : Nat) (table : Table) : Config (ThreadId n) Mutex Table :=
  if n = 1 then
    { threads := fun
        | .philo _ => ⟨.done false, .done false⟩
        | .monitor => ⟨caseOne, .done false⟩
      owner := fun _ => none
      shared := table }
  else startConfig n table

/-- The clock may go on at any time, and does not go back. -/
def Tick (table later : Table) : Prop :=
  ∃ time, table.time ≤ time ∧ later = { table with time }

end FortyTwo.Philosophers
