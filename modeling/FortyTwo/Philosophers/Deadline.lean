import FortyTwo.Philosophers.Sections

/-!
Whom the monitor reports dead. `last_meal` is 0 until the thread of the philosopher
has set it; from then on it is a time of his plus `time_to_die`, neither before he
began nor before his last meal that was recorded.
-/

namespace FortyTwo.Philosophers

open Foundation Foundation.Prog Foundation.Contract

/-- A "died" that the monitor has printed, with what was noted of all philosophers
then, and the meals when it last looked at `last_meal`. -/
structure Report where
  time : Nat
  id : Nat
  begun : Nat → Option Nat
  meal : Nat → Option Nat
  checked : Nat → Option Nat

/-- When a thread first read or wrote the table, when it last counted a meal, and
what the monitor did. -/
structure Log where
  begun : Nat → Option Nat := fun _ => none
  meal : Nat → Option Nat := fun _ => none
  checked : Nat → Option Nat := fun _ => none
  reports : List Report := []

/-- The deaths among what an access has printed. -/
def deaths (table later : Table) (log : Log) : List Report :=
  ((later.printed.drop table.printed.length).filter fun entry => entry.2.2 = "died").map
    fun entry => ⟨entry.1, entry.2.1, log.begun, log.meal, log.checked⟩

open Classical in
noncomputable def observe {n : Nat} (t : ThreadId n) (H : Set Mutex) (table later : Table)
    (log : Log) : Log :=
  match t with
  | .philo i =>
      { log with
        begun := if log.begun i = none then Function.update log.begun i (some table.time)
          else log.begun
        meal := if later.meals i ≠ table.meals i then Function.update log.meal i (some table.time)
          else log.meal }
  | .monitor =>
      { log with
        -- the monitor looks at the deadlines, and is not printing
        checked := if .mealmutex ∈ H ∧ .deadmutex ∉ H then log.meal else log.checked
        reports := log.reports ++ deaths table later log }

/-- The philosopher `i` had begun more than `limit` before the report, and so had the
meal that is taken for his last. -/
def Report.Overdue (start limit i : Nat) (meal : Nat → Option Nat) (r : Report) : Prop :=
  ∃ b, r.begun i = some b ∧ b + limit < start + r.time ∧
    ∀ m, meal i = some m → m + limit < start + r.time

/-- Each report is right about the meals that the monitor knew of. -/
def Right (start limit : Nat) (reports : List Report) : Prop :=
  ∀ r ∈ reports, ∀ i, r.id = i + 1 → r.Overdue start limit i r.checked

/-- The clock goes on, and stays so far below `SIZE_MAX` that `get_time() +
time_to_die` does not wrap around. -/
def TickBelow (limit : Nat) (table later : Table) : Prop :=
  Tick table later ∧ later.time + limit < 2 ^ 64

/-- The monitor takes `mealmutex` to check `i` only when `i` has set his deadline. -/
def ChecksBegun {n : Nat} (t : ThreadId n) (program : Prog Mutex Table Bool) (table : Table) : Prop :=
  ∀ i left rest, t = .monitor → i < n → program = (checkIsDeadFrom n i (left + 1) >>= rest) →
    table.lastMeal i ≠ 0

/-- What never goes back. -/
structure Onward (limit : Nat) (x y : Table × Log) : Prop where
  time : x.1.time ≤ y.1.time
  bound : x.1.time + limit < 2 ^ 64 → y.1.time + limit < 2 ^ 64
  start : y.1.start = x.1.start
  begun : ∀ {i b}, x.2.begun i = some b → y.2.begun i = some b

/-- What a thread without `mealmutex` leaves alone. -/
structure Frozen (limit : Nat) (x y : Table × Log) : Prop extends Onward limit x y where
  timeToDie : y.1.timeToDie = x.1.timeToDie
  lastMeal : y.1.lastMeal = x.1.lastMeal
  meal : y.2.meal = x.2.meal
  late : ∀ {i b}, y.2.begun i = some b → x.2.begun i = some b ∨ b ≤ y.1.time

/-- What `mealmutex` protects: the deadlines of the philosophers that `good` says. -/
structure Ledger (limit : Nat) (good : Nat → Prop) (x : Table × Log) : Prop where
  timeToDie : x.1.timeToDie = limit
  bound : x.1.time + limit < 2 ^ 64
  begun : ∀ i b, x.2.begun i = some b → b ≤ x.1.time
  meal : ∀ i m, x.2.meal i = some m → m ≤ x.1.time
  deadline : ∀ i, good i → x.1.lastMeal i ≠ 0 → ∃ b d, x.2.begun i = some b ∧ b ≤ d ∧
    x.1.lastMeal i = d + limit ∧ ∀ m, x.2.meal i = some m → m ≤ d

section Frames

variable {limit start : Nat} {good : Nat → Prop} {x y z : Table × Log}

theorem Onward.refl : Onward limit x x := ⟨le_rfl, id, rfl, id⟩

theorem Onward.trans (h : Onward limit x y) (h' : Onward limit y z) : Onward limit x z :=
  ⟨h.time.trans h'.time, h'.bound ∘ h.bound, h'.start.trans h.start, h'.begun ∘ h.begun⟩

theorem Frozen.refl : Frozen limit x x := ⟨.refl, rfl, rfl, rfl, Or.inl⟩

theorem Frozen.trans (h : Frozen limit x y) (h' : Frozen limit y z) : Frozen limit x z where
  toOnward := h.toOnward.trans h'.toOnward
  timeToDie := h'.timeToDie.trans h.timeToDie
  lastMeal := h'.lastMeal.trans h.lastMeal
  meal := h'.meal.trans h.meal
  late hz := by
    rcases h'.late hz with hy | hle
    · exact (h.late hy).imp_right fun hle => hle.trans h'.time
    · exact Or.inr hle

theorem Ledger.frozen (h : Ledger limit good x) (hy : Frozen limit x y) :
    Ledger limit good y where
  timeToDie := hy.timeToDie.trans h.timeToDie
  bound := hy.bound h.bound
  begun i b hb := (hy.late hb).elim (fun hb => (h.begun i b hb).trans hy.time) id
  meal i m hm := by
    rw [hy.meal] at hm
    exact (h.meal i m hm).trans hy.time
  deadline i hi hset := by
    rw [hy.lastMeal] at hset
    obtain ⟨b, d, hb, hle, hlast, hmeal⟩ := h.deadline i hi hset
    exact ⟨b, d, hy.begun hb, hle, hy.lastMeal ▸ hlast, hy.meal ▸ hmeal⟩

theorem Ledger.mono {good' : Nat → Prop} (h : Ledger limit good x) (hgood : ∀ i, good' i → good i) :
    Ledger limit good' x :=
  ⟨h.timeToDie, h.bound, h.begun, h.meal, fun i hi => h.deadline i (hgood i hi)⟩

end Frames

/-- Under `mealmutex` the deadlines stay and agree with the notes. What the monitor
knows of the meals changes only where it looks at the deadlines. -/
noncomputable def punctual (n start limit : Nat) : Contract (ThreadId n) Mutex Table Log where
  note := observe
  permit t program x := ChecksBegun t program x.1
  inv m x := m = .mealmutex → Ledger limit (fun _ => True) x
  rely t H x y :=
    Onward limit x y ∧ (.mealmutex ∈ H → Frozen limit x y) ∧
      (t = .monitor → y.2.checked = x.2.checked ∨
        .mealmutex ∈ H ∧ .deadmutex ∉ H ∧ y.2.checked = x.2.meal)
  guar t H x y :=
    Onward limit x y ∧ (.mealmutex ∉ H → Frozen limit x y) ∧
      (t ≠ .monitor → y.2.checked = x.2.checked) ∧
      (Right start limit x.2.reports → Right start limit y.2.reports)

section Accesses

variable {n start limit : Nat} {t : ThreadId n} {H : Set Mutex} {x : Table × Log} {later : Table}

theorem observe_begun {table : Table} {log : Log} {i b : Nat} (h : log.begun i = some b) :
    (observe t H table later log).begun i = some b := by
  cases t with
  | philo j =>
      change (if log.begun j = none then Function.update log.begun j (some table.time)
        else log.begun) i = some b
      split
      · next hnone =>
          have hne : i ≠ j := by
            rintro rfl
            rw [h] at hnone
            cases hnone
          rw [Function.update_of_ne hne, h]
      · exact h
  | monitor => exact h

theorem observe_late {table : Table} {log : Log} {i b : Nat}
    (h : (observe t H table later log).begun i = some b) :
    log.begun i = some b ∨ b = table.time := by
  cases t with
  | philo j =>
      change (if log.begun j = none then Function.update log.begun j (some table.time)
        else log.begun) i = some b at h
      split at h
      · by_cases hij : i = j
        · subst hij
          rw [Function.update_self, Option.some.injEq] at h
          exact Or.inr h.symm
        · rw [Function.update_of_ne hij] at h
          exact Or.inl h
      · exact Or.inl h
  | monitor => exact Or.inl h

theorem observe_meal {table : Table} {log : Log} (h : later.meals = table.meals) :
    (observe t H table later log).meal = log.meal := by
  cases t with
  | philo j =>
      change (if later.meals j ≠ table.meals j then _ else log.meal) = log.meal
      rw [h, if_neg (not_not.mpr rfl)]
  | monitor => rfl

theorem observe_checked {table : Table} {log : Log} :
    (observe (.monitor : ThreadId n) H table later log).checked = log.checked ∨
      .mealmutex ∈ H ∧ .deadmutex ∉ H ∧
        (observe (.monitor : ThreadId n) H table later log).checked = log.meal := by
  simp only [observe]
  split_ifs with hlook
  · exact Or.inr ⟨hlook.1, hlook.2, rfl⟩
  · exact Or.inl rfl

/-- An access that leaves the clock and the deadlines alone. -/
structure Quiet (table later : Table) : Prop where
  time : later.time = table.time
  start : later.start = table.start
  timeToDie : later.timeToDie = table.timeToDie
  meals : later.meals = table.meals
  lastMeal : later.lastMeal = table.lastMeal

theorem onward_noted (htime : later.time = x.1.time) (hstart : later.start = x.1.start) :
    Onward limit x ((punctual n start limit).noted t H x later) where
  time := htime.ge
  bound h := by
    change later.time + limit < 2 ^ 64
    rwa [htime]
  start := hstart
  begun := observe_begun

theorem Quiet.frozen (h : Quiet x.1 later) :
    Frozen limit x ((punctual n start limit).noted t H x later) where
  toOnward := onward_noted h.time h.start
  timeToDie := h.timeToDie
  lastMeal := h.lastMeal
  meal := observe_meal h.meals
  late hb := (observe_late hb).imp_right fun heq => heq.le.trans h.time.ge

theorem deaths_of_same {table : Table} {log : Log} (h : later.printed = table.printed) :
    deaths table later log = [] := by
  rw [deaths, h, List.drop_length]
  rfl

theorem deaths_died {table : Table} {log : Log} {time id : Nat} :
    deaths table { table with printed := table.printed ++ [(time, id, "died")] } log =
      [⟨time, id, log.begun, log.meal, log.checked⟩] := by
  simp [deaths]

theorem guar_philo {i : Fin n} (htime : later.time = x.1.time) (hstart : later.start = x.1.start)
    (hquiet : .mealmutex ∉ H → Quiet x.1 later) :
    (punctual n start limit).guar (.philo i) H x
      ((punctual n start limit).noted (.philo i) H x later) :=
  ⟨onward_noted htime hstart, fun hm => (hquiet hm).frozen, fun _ => rfl, id⟩

theorem guar_quiet (h : Quiet x.1 later) (hprinted : later.printed = x.1.printed) :
    (punctual n start limit).guar t H x ((punctual n start limit).noted t H x later) := by
  refine ⟨h.frozen.toOnward, fun _ => h.frozen, fun ht => ?_, fun hright => ?_⟩
  · cases t with
    | philo i => rfl
    | monitor => exact absurd rfl ht
  · cases t with
    | philo i => exact hright
    | monitor =>
        change Right start limit (x.2.reports ++ deaths x.1 later x.2)
        rw [deaths_of_same hprinted, List.append_nil]
        exact hright

theorem rely_quiet (h : Quiet x.1 later) :
    (punctual n start limit).rely t H x ((punctual n start limit).noted t H x later) := by
  refine ⟨h.frozen.toOnward, fun _ => h.frozen, ?_⟩
  intro ht
  subst ht
  exact observe_checked (n := n)

end Accesses

theorem frozen_tick {limit : Nat} {table later : Table} {log : Log}
    (h : TickBelow limit table later) : Frozen limit (table, log) (later, log) := by
  obtain ⟨⟨time, hle, rfl⟩, hbound⟩ := h
  exact ⟨⟨hle, fun _ => hbound, rfl, id⟩, rfl, rfl, rfl, Or.inl⟩

theorem punctual_sound {n start limit : Nat} :
    (punctual n start limit).Sound (TickBelow limit) where
  refl _ _ _ := ⟨.refl, fun _ => .refl, fun _ => Or.inl rfl⟩
  trans hxy hyz := by
    refine ⟨hxy.1.trans hyz.1, fun hm => (hxy.2.1 hm).trans (hyz.2.1 hm), ?_⟩
    intro ht
    rcases hyz.2.2 ht with hsame | ⟨hm, hd, hlook⟩
    · rw [hsame]
      exact hxy.2.2 ht
    · exact Or.inr ⟨hm, hd, hlook.trans (hxy.2.1 hm).meal⟩
  compat hne hdisjoint hguar :=
    ⟨hguar.1, fun hm => hguar.2.1 fun hm' => hdisjoint _ hm' hm,
      fun ht => Or.inl (hguar.2.2.1 fun heq => hne (ht.trans heq.symm))⟩
  rely_environment _ _ _ htick :=
    ⟨(frozen_tick htick).toOnward, fun _ => frozen_tick htick, fun _ => Or.inl rfl⟩
  idle_guar _ _ _ := guar_quiet ⟨rfl, rfl, rfl, rfl, rfl⟩ rfl
  idle_rely _ _ _ := rely_quiet ⟨rfl, rfl, rfl, rfl, rfl⟩
  inv_guar hm hguar hinv heq := (hinv heq).frozen (hguar.2.1 (heq ▸ hm))
  inv_rely hm hrely hinv heq := (hinv heq).frozen (hrely.2.1 (heq ▸ hm))
  inv_environment htick hinv heq := (hinv heq).frozen (frozen_tick htick)

section Philosopher

variable {n start limit : Nat} {i : Fin n} {A : Table × Log → Prop}

/-- Under `mealmutex`, with all deadlines but his own right. -/
private def Serving (limit i : Nat) (H : Set Mutex) (x : Table × Log) : Prop :=
  .mealmutex ∈ H ∧ Ledger limit (· ≠ i) x

/-- `now` was read when he had begun and had counted his last meal. -/
private def Stamped (limit i now : Nat) (H : Set Mutex) (x : Table × Log) : Prop :=
  Serving limit i H x ∧ now + limit < 2 ^ 64 ∧ ∃ b, x.2.begun i = some b ∧ b ≤ now ∧
    ∀ m, x.2.meal i = some m → m ≤ now

private theorem serving_stable {t : ThreadId n} :
    (punctual n start limit).Stable t (Serving limit i) :=
  fun hy hx => ⟨hx.1, hx.2.frozen (hy.2.1 hx.1)⟩

private theorem stamped_stable {t : ThreadId n} {now : Nat} :
    (punctual n start limit).Stable t (Stamped limit i now) := by
  rintro H x y hy ⟨hserving, hnow, b, hb, hle, hmeal⟩
  have hfrozen := hy.2.1 hserving.1
  exact ⟨serving_stable hy hserving, hnow, b, hfrozen.begun hb, hle, hfrozen.meal ▸ hmeal⟩

/-- An access of the philosopher marks that he has begun. -/
private theorem begun_observe {H : Set Mutex} {table later : Table} {log : Log}
    (hlate : ∀ b, log.begun i = some b → b ≤ table.time) :
    ∃ b, (observe (.philo i) H table later log).begun i = some b ∧ b ≤ table.time := by
  change ∃ b, (if log.begun i = none then Function.update log.begun i (some table.time)
    else log.begun) i = some b ∧ b ≤ table.time
  split
  · exact ⟨table.time, Function.update_self _ _ _, le_rfl⟩
  · next hsome =>
      obtain ⟨b, hb⟩ := Option.ne_none_iff_exists'.mp hsome
      exact ⟨b, hb, hlate b hb⟩

private theorem meal_observe {H : Set Mutex} {table later : Table} {log : Log} {j : Nat} :
    (j ≠ i → (observe (.philo i) H table later log).meal j = log.meal j) ∧
      ∀ m, (observe (.philo i) H table later log).meal j = some m →
        log.meal j = some m ∨ m = table.time := by
  simp only [observe]
  split_ifs with hsame
  · refine ⟨fun hj => Function.update_of_ne hj _ _, ?_⟩
    intro m hm
    by_cases hj : j = i
    · subst hj
      rw [Function.update_self, Option.some.injEq] at hm
      exact Or.inr hm.symm
    · rw [Function.update_of_ne hj] at hm
      exact Or.inl hm
  · exact ⟨fun _ => rfl, fun _ => Or.inl⟩

/-- The philosopher writes to what is his. -/
private theorem Ledger.noted {H : Set Mutex} {x : Table × Log} {later : Table}
    {good good' : Nat → Prop} (h : Ledger limit good x) (htime : later.time = x.1.time)
    (httd : later.timeToDie = x.1.timeToDie)
    (hlast : ∀ j : Nat, j ≠ i → later.lastMeal j = x.1.lastMeal j)
    (hgood : ∀ j, good' j → j ≠ i → good j)
    (hown : good' i → ∃ b d, x.2.begun i = some b ∧ b ≤ d ∧ later.lastMeal i = d + limit ∧
      ∀ m, (observe (.philo i) H x.1 later x.2).meal i = some m → m ≤ d) :
    Ledger limit good' (later, observe (.philo i) H x.1 later x.2) where
  timeToDie := httd.trans h.timeToDie
  bound := htime.symm ▸ h.bound
  begun j b hb := by
    change (observe (.philo i) H x.1 later x.2).begun j = some b at hb
    change b ≤ later.time
    rw [htime]
    rcases observe_late hb with hb | rfl
    · exact h.begun j b hb
    · exact le_rfl
  meal j m hm := by
    change (observe (.philo i) H x.1 later x.2).meal j = some m at hm
    change m ≤ later.time
    rw [htime]
    rcases meal_observe.2 m hm with hm | rfl
    · exact h.meal j m hm
    · exact le_rfl
  deadline j hj hset := by
    have hbegun : ∀ b, x.2.begun j = some b →
        (observe (.philo i) H x.1 later x.2).begun j = some b := fun b hb => observe_begun hb
    by_cases hij : j = i
    · subst hij
      obtain ⟨b, d, hb, hle, hlater, hmeal⟩ := hown hj
      exact ⟨b, d, hbegun b hb, hle, hlater, hmeal⟩
    · have hset' : x.1.lastMeal j ≠ 0 := by
        rw [← hlast j hij]
        exact hset
      obtain ⟨b, d, hb, hle, hold, hmeal⟩ := h.deadline j (hgood j hj hij) hset'
      have hsame : (observe (.philo i) H x.1 later x.2).meal j = x.2.meal j :=
        meal_observe.1 hij
      exact ⟨b, d, hbegun b hb, hle, (hlast j hij).trans hold,
        fun m hm => hmeal m (hsame.symm.trans hm)⟩

theorem postpone_serving :
    (punctual n start limit).Triple (.philo i) A (Serving limit i) (postpone (philo n i))
      fun _ H x => .mealmutex ∈ H ∧ Ledger limit (fun _ => True) x := by
  refine triple_bind (Stamped limit i)
    (triple_read punctual_sound fun H x y hx hy => ?_) fun now => ?_
  · have hserving := serving_stable hy hx
    obtain ⟨b, hb, hle⟩ : ∃ b, (observe (.philo i) H y.1 y.1 y.2).begun i = some b ∧ b ≤ y.1.time :=
      begun_observe (hserving.2.begun i)
    have hmeal : (observe (.philo i) H y.1 y.1 y.2).meal = y.2.meal := observe_meal rfl
    refine ⟨serving_stable (rely_quiet ⟨rfl, rfl, rfl, rfl, rfl⟩) hserving, hserving.2.bound,
      b, hb, hle, fun m hm => hserving.2.meal i m ?_⟩
    rw [← hmeal]
    exact hm
  refine triple_bind (fun timeToDie H x => Stamped limit i now H x ∧ timeToDie = limit)
    (triple_read punctual_sound fun H x y hx hy => ?_) fun timeToDie => ?_
  · have hstamped := stamped_stable hy hx
    exact ⟨stamped_stable (rely_quiet ⟨rfl, rfl, rfl, rfl, rfl⟩) hstamped,
      hstamped.1.2.timeToDie⟩
  apply triple_write
  intro H x y hx hy
  obtain ⟨⟨⟨hm, hledger⟩, hnow, b, hb, hle, hmeal⟩, rfl⟩ :
    Stamped limit i now H y ∧ timeToDie = limit := ⟨stamped_stable hy hx.1, hx.2⟩
  refine ⟨guar_philo rfl rfl fun hnot => absurd hm hnot, hm, ?_⟩
  have hsize : sizeAdd now timeToDie = now + timeToDie := Nat.mod_eq_of_lt hnow
  have hsame : ∀ later : Table, later.meals = y.1.meals →
      (observe (.philo i) H y.1 later y.2).meal = y.2.meal := fun _ => observe_meal
  refine hledger.noted (H := H) rfl rfl (fun j hj => Function.update_of_ne hj _ _) (fun j _ hj => hj)
    fun _ => ⟨b, now, hb, hle, (Function.update_self _ _ _).trans hsize,
      fun m hcount => hmeal m ((congrFun (hsame _ ?_) i).symm.trans hcount)⟩
  rfl

/-- Outside of `mealmutex` a philosopher has nothing to keep. -/
private theorem release_serving {P : Set Mutex → Table × Log → Prop}
    (hP : ∀ {H x}, P H x → .mealmutex ∈ H ∧ Ledger limit (fun _ => True) x)
    {t : ThreadId n} (hstable : (punctual n start limit).Stable t P) :
    (punctual n start limit).Triple t A P (release .mealmutex)
      fun _ => (punctual n start limit).Owning fun _ _ => True := by
  refine triple_release fun H x y hx hm hy => ⟨fun _ => (hP (hstable hy hx)).2, ?_, trivial⟩
  exact fun m hm' heq => absurd heq hm'.2

private theorem acquire_serving {t : ThreadId n} {P : Set Mutex → Table × Log → Prop} :
    (punctual n start limit).Triple t A P (acquire .mealmutex)
      fun _ H x => .mealmutex ∈ H ∧ Ledger limit (fun _ => True) x :=
  triple_acquire fun _ _ _ _ _ hinv => ⟨Set.mem_insert _ _, hinv rfl⟩

private theorem ledger_stable {t : ThreadId n} {good : Nat → Prop} :
    (punctual n start limit).Stable t fun H x => .mealmutex ∈ H ∧ Ledger limit good x :=
  fun hy hx => ⟨hx.1, hx.2.frozen (hy.2.1 hx.1)⟩

theorem mealSection_tidy :
    (punctual n start limit).Tidy (.philo i) A (fun _ _ => True) (mealSection (philo n i)) := by
  apply triple_bind _ acquire_serving
  intro _
  refine triple_bind (fun _ => Serving limit i) (triple_write fun H x y hx hy => ?_) fun _ => ?_
  · obtain ⟨hm, hledger⟩ := ledger_stable hy hx
    refine ⟨guar_philo rfl rfl fun hnot => absurd hm hnot, hm, ?_⟩
    exact hledger.noted (H := H) rfl rfl (fun _ _ => rfl) (fun _ _ _ => trivial) fun hne => absurd rfl hne
  · exact triple_bind _ postpone_serving fun _ => release_serving id ledger_stable

theorem routineStart_tidy :
    (punctual n start limit).Tidy (.philo i) A (fun _ _ => True) (routineStart (philo n i)) := by
  apply triple_bind _ acquire_serving
  intro _
  refine triple_bind _ (postpone_serving.mono (fun H x hx => ⟨hx.1, hx.2.mono fun _ _ => trivial⟩)
    fun _ _ _ => id) fun _ => ?_
  exact triple_bind _ (release_serving id ledger_stable) fun _ => tidy_pure

/-- A philosopher prints no more than his state. -/
theorem printSection_tidy {p : Philo} {message : String} {time : Nat} :
    (punctual n start limit).Tidy (.philo i) A (fun _ _ => True) (printSection p message time) := by
  have hP : Carried (punctual n start limit) (.philo i) fun _ _ => True := carried_true
  have hend : (punctual n start limit).Tidy (.philo i) A (fun _ _ => True)
      (release .mealmutex >>= fun _ => release .deadmutex) :=
    tidy_bind (release_tidy punctual_sound hP) fun _ => release_tidy punctual_sound hP
  apply tidy_bind (acquire_tidy punctual_sound hP)
  intro _
  apply tidy_bind (acquire_tidy punctual_sound hP)
  intro _
  apply tidy_bind (tidy_read punctual_sound hP.stable)
  intro dead
  apply tidy_bind (tidy_read punctual_sound hP.stable)
  intro full
  split
  · refine tidy_bind (tidy_write punctual_sound hP.stable fun H x hx => ?_) fun _ => hend
    have hquiet : ∀ printed, Quiet x.1 { x.1 with printed } := fun _ => ⟨rfl, rfl, rfl, rfl, rfl⟩
    exact ⟨guar_philo rfl rfl fun _ => hquiet _,
      fun m hm heq => (hx.1 m hm heq).frozen (hquiet _).frozen, trivial⟩
  · exact hend

end Philosopher

section Monitor

variable {n start limit : Nat} {A : Table × Log → Prop}

/-- What the monitor knows of the clock. -/
private def Clock (start limit : Nat) (x : Table × Log) : Prop :=
  x.1.start = start ∧ start ≤ x.1.time ∧ x.1.time + limit < 2 ^ 64

private theorem clock_later {H : Set Mutex} {x y : Table × Log}
    (hy : (punctual n start limit).rely .monitor H x y) (hx : Clock start limit x) :
    Clock start limit y :=
  ⟨hy.1.start.trans hx.1, hx.2.1.trans hy.1.time, hy.1.bound hx.2.2⟩

private theorem carried_clock :
    Carried (punctual n start limit) .monitor fun _ => Clock start limit where
  stable hy hx := clock_later hy hx
  insert := id
  erase := id

/-- A write of the monitor that is not printed. -/
private theorem monitor_quiet {f : Table → Table} (hquiet : ∀ table, Quiet table (f table))
    (hprinted : ∀ table, (f table).printed = table.printed) :
    (punctual n start limit).Tidy .monitor A (fun _ => Clock start limit) (write f) := by
  apply tidy_write punctual_sound carried_clock.stable
  intro H x hx
  have hrely : (punctual n start limit).rely .monitor H x
      ((punctual n start limit).noted .monitor H x (f x.1)) := rely_quiet (hquiet x.1)
  exact ⟨guar_quiet (hquiet x.1) (hprinted x.1),
    Stable.owning punctual_sound carried_clock.stable hrely hx⟩

/-- The monitor knows that `i` is overdue `time` after `base`, with the meals that it saw. -/
private def Late (base limit i time : Nat) (x : Table × Log) : Prop :=
  ∃ b, x.2.begun i = some b ∧ b + limit < base + time ∧
    ∀ m, x.2.checked i = some m → m + limit < base + time

private theorem late_later {base i time : Nat} {H : Set Mutex} {x y : Table × Log}
    (hy : (punctual n start limit).rely .monitor H x y) (hH : .mealmutex ∈ H → .deadmutex ∈ H)
    (hx : Late base limit i time x) : Late base limit i time y := by
  obtain ⟨b, hb, hbegun, hmeal⟩ := hx
  refine ⟨b, hy.1.begun hb, hbegun, ?_⟩
  rcases hy.2.2 rfl with hsame | ⟨hm, hd, -⟩
  · rw [hsame]
    exact hmeal
  · exact absurd (hH hm) hd

/-- The monitor prints that `i` died. -/
theorem printSection_late {i time : Nat} :
    (punctual n start limit).Triple .monitor A (fun H x => H = ∅ ∧ Late start limit i time x)
      (printSection (philo n i) "died" time) fun _ _ _ => True := by
  let locked : Set Mutex → Table × Log → Prop := fun H x =>
    (.deadmutex ∈ H ∧ Late start limit i time x) ∧ .mealmutex ∈ H ∧ Ledger limit (fun _ => True) x
  have hlocked : (punctual n start limit).Stable .monitor locked := fun hy hx =>
    ⟨⟨hx.1.1, late_later hy (fun _ => hx.1.1) hx.1.2⟩, ledger_stable hy hx.2⟩
  have hend : (punctual n start limit).Triple .monitor A
      (fun H x => .mealmutex ∈ H ∧ Ledger limit (fun _ => True) x)
      (release .mealmutex >>= fun _ => release .deadmutex) fun _ _ _ => True :=
    triple_bind (fun _ _ _ => True)
      (triple_release fun _ _ _ hx _ hy => ⟨fun _ => (ledger_stable hy hx).2, trivial⟩)
      fun _ => triple_release fun _ _ _ _ _ _ => ⟨fun heq => (by cases heq), trivial⟩
  refine triple_bind (fun _ H x => .deadmutex ∈ H ∧ Late start limit i time x)
    (triple_acquire fun H x y hx hy _ => ?_) fun _ => ?_
  · exact ⟨Set.mem_insert _ _, late_later hy (fun hm => by rw [hx.1] at hm; cases hm) hx.2⟩
  refine triple_bind (fun _ => locked) (triple_acquire fun H x y hx hy hinv => ?_) fun _ => ?_
  · exact ⟨⟨Set.mem_insert_of_mem _ hx.1, late_later hy (fun _ => hx.1) hx.2⟩,
      Set.mem_insert _ _, hinv rfl⟩
  have hread : ∀ {α : Type} (f : Table → α), (punctual n start limit).Triple .monitor A locked
      (read f) fun _ => locked := fun f =>
    triple_read punctual_sound fun _ _ _ hx hy =>
      hlocked (rely_quiet ⟨rfl, rfl, rfl, rfl, rfl⟩) (hlocked hy hx)
  apply triple_bind _ (hread _)
  intro dead
  apply triple_bind _ (hread _)
  intro full
  split
  · refine triple_bind _ (triple_write fun H x y hx hy => ?_) fun _ => hend
    obtain ⟨⟨-, hlate⟩, hm, hledger⟩ := hlocked hy hx
    have hquiet : ∀ printed, Quiet y.1 { y.1 with printed } := fun _ => ⟨rfl, rfl, rfl, rfl, rfl⟩
    refine ⟨⟨onward_noted rfl rfl, fun hnot => absurd hm hnot, fun ht => absurd rfl ht,
      fun hright => ?_⟩, hm, hledger.frozen (hquiet _).frozen⟩
    intro r hr j hj
    rcases List.mem_append.mp hr with hold | hnew
    · exact hright r hold j hj
    · rw [deaths_died] at hnew
      obtain rfl := List.mem_singleton.mp hnew
      obtain rfl : i = j := Nat.succ_injective hj
      exact hlate
  · exact hend.mono (fun _ _ hx => hx.2) fun _ _ _ => id

/-- The monitor holds `mealmutex`, and `i` has set his deadline. -/
private def Looking (start limit i : Nat) (H : Set Mutex) (x : Table × Log) : Prop :=
  H = {.mealmutex} ∧ Clock start limit x ∧ Ledger limit (fun _ => True) x ∧ x.1.lastMeal i ≠ 0

private theorem looking_stable {i : Nat} :
    (punctual n start limit).Stable .monitor (Looking start limit i) := by
  rintro H x y hy ⟨rfl, hclock, hledger, hset⟩
  have hfrozen := hy.2.1 rfl
  exact ⟨rfl, clock_later hy hclock, hledger.frozen hfrozen, hfrozen.lastMeal ▸ hset⟩

/-- It has read the deadline too, later than the clock. -/
private def Saw (start limit i now lastMeal : Nat) (H : Set Mutex) (x : Table × Log) : Prop :=
  Looking start limit i H x ∧ now ≤ x.1.time ∧ x.1.lastMeal i = lastMeal ∧ x.2.checked = x.2.meal

private theorem saw_stable {i now lastMeal : Nat} :
    (punctual n start limit).Stable .monitor (Saw start limit i now lastMeal) := by
  rintro H x y hy ⟨hlooking, hnow, hlast, hchecked⟩
  have hfrozen := hy.2.1 (by rw [hlooking.1]; rfl)
  refine ⟨looking_stable hy hlooking, hnow.trans hy.1.time, hfrozen.lastMeal ▸ hlast, ?_⟩
  rw [hfrozen.meal]
  rcases hy.2.2 rfl with hsame | ⟨-, -, hlook⟩
  · exact hsame.trans hchecked
  · exact hlook

/-- Who is found overdue by `now` is overdue at any time from then on. -/
private theorem late_of_saw {i now lastMeal : Nat} {H : Set Mutex} {x : Table × Log}
    (h : Saw start limit i now lastMeal H x) (hover : lastMeal < now) : Late 0 limit i now x := by
  obtain ⟨⟨-, -, hledger, hset⟩, -, hlast, hchecked⟩ := h
  obtain ⟨b, d, hb, hle, hdeadline, hmeal⟩ := hledger.deadline i trivial hset
  refine ⟨b, hb, by omega, ?_⟩
  intro m hm
  rw [hchecked] at hm
  have hd := hmeal m hm
  omega

private theorem sizeSub_of_le {now start : Nat} (hle : start ≤ now) (hnow : now < 2 ^ 64) :
    start + sizeSub now start = now := by
  have hsub : now + 2 ^ 64 - start = now - start + 2 ^ 64 := by omega
  rw [sizeSub, hsub, Nat.add_mod_right, Nat.mod_eq_of_lt (by omega)]
  omega

/-- `print_message` reads the clock once more. -/
theorem printMessage_late {i now : Nat} :
    (punctual n start limit).Triple .monitor A
      (fun H x => H = ∅ ∧ Clock start limit x ∧ Late 0 limit i now x ∧ now ≤ x.1.time)
      (printMessage (philo n i) "died") fun _ _ _ => True := by
  have hfree : ∀ {H : Set Mutex}, H = ∅ → Mutex.mealmutex ∈ H → Mutex.deadmutex ∈ H := by
    rintro H rfl hm
    cases hm
  have hidle : ∀ {H : Set Mutex} {x : Table × Log}, (punctual n start limit).rely .monitor H x
      ((punctual n start limit).noted .monitor H x x.1) := rely_quiet ⟨rfl, rfl, rfl, rfl, rfl⟩
  rw [printMessage_eq]
  refine triple_bind (fun stamp H x => H = ∅ ∧ Clock start limit x ∧
    Late 0 limit i stamp x ∧ start ≤ stamp ∧ stamp < 2 ^ 64)
    (triple_read punctual_sound fun H x y hx hy => ?_) fun stamp => ?_
  · obtain ⟨hH, hclock, hlate, hnow⟩ := hx
    have hclock' := clock_later hy hclock
    obtain ⟨b, hb, hbegun, hmeal⟩ := late_later hidle (hfree hH) (late_later hy (hfree hH) hlate)
    have hstamp := hnow.trans hy.1.time
    refine ⟨hH, clock_later hidle hclock', ⟨b, hb, by omega, fun m hm => ?_⟩,
      hclock'.2.1, by have hbound := hclock'.2.2; omega⟩
    have hold := hmeal m hm
    omega
  refine triple_bind (fun begin H x => H = ∅ ∧ Late start limit i (sizeSub stamp begin) x)
    (triple_read punctual_sound fun H x y hx hy => ?_) fun begin => printSection_late
  obtain ⟨hH, hclock, hlate, hle, hstamp⟩ := hx
  have hbegin : y.1.start = start := (clock_later hy hclock).1
  obtain ⟨b, hb, hbegun, hmeal⟩ := late_later hidle (hfree hH) (late_later hy (hfree hH) hlate)
  rw [hbegin]
  have htime := sizeSub_of_le hle hstamp
  refine ⟨hH, b, hb, by omega, ?_⟩
  intro m hm
  have hold := hmeal m hm
  omega

theorem checkIsDeadFrom_late {i left : Nat} (hi : i + left = n) :
    (punctual n start limit).Triple .monitor A (fun H x => H = ∅ ∧ Clock start limit x)
      (checkIsDeadFrom n i left)
      fun result H x => result = 0 → H = ∅ ∧ Clock start limit x := by
  have hidle : ∀ {H : Set Mutex} {x : Table × Log}, (punctual n start limit).rely .monitor H x
      ((punctual n start limit).noted .monitor H x x.1) := rely_quiet ⟨rfl, rfl, rfl, rfl, rfl⟩
  induction left generalizing i with
  | zero => exact triple_pure fun _ _ hx _ => hx
  | succ left ih =>
      refine triple_acquire_bind (Looking start limit i) (fun k H x y hx hy hpermit hinv => ?_) ?_
      · obtain ⟨rfl, hclock⟩ := hx
        exact ⟨insert_empty_eq _, clock_later hy hclock, hinv rfl,
          hpermit i left k rfl (by omega) rfl⟩
      refine triple_bind (fun now H x => Looking start limit i H x ∧ now ≤ x.1.time)
        (triple_read punctual_sound fun H x y hx hy => ?_) fun now => ?_
      · exact ⟨looking_stable hidle (looking_stable hy hx), le_rfl⟩
      refine triple_bind (fun lastMeal => Saw start limit i now lastMeal)
        (triple_read punctual_sound fun H x y hx hy => ?_) fun lastMeal => ?_
      · have hlooking := looking_stable hy hx.1
        refine ⟨looking_stable hidle hlooking, hx.2.trans hy.1.time, rfl, ?_⟩
        rw [hlooking.1]
        exact if_pos ⟨rfl, by simp⟩
      split
      · next hover =>
          refine triple_bind (fun _ H x => H = ∅ ∧ Clock start limit x ∧
            Late 0 limit i now x ∧ now ≤ x.1.time)
            (triple_release fun H x y hx hm hy => ?_) fun _ => ?_
          · have hsaw := saw_stable hy hx
            obtain ⟨⟨rfl, hclock, hledger, -⟩, hnow, -⟩ := id hsaw
            exact ⟨fun _ => hledger, Set.sdiff_self, hclock, late_of_saw hsaw hover, hnow⟩
          apply triple_bind _ printMessage_late
          intro _
          refine (setDead_triple (fun x heq => by cases heq) fun H x _ => ?_).mono (fun _ _ => id)
            fun _ _ _ hone hzero => absurd (hone.symm.trans hzero) (by decide)
          exact guar_quiet ⟨rfl, rfl, rfl, rfl, rfl⟩ rfl
      · refine triple_bind (fun _ H x => H = ∅ ∧ Clock start limit x)
          (triple_release fun H x y hx hm hy => ?_) fun _ => ih (by omega)
        obtain ⟨⟨rfl, hclock, hledger, -⟩, -⟩ := saw_stable hy hx
        exact ⟨fun _ => hledger, Set.sdiff_self, hclock⟩

/-- The end of a round. -/
private theorem clock_end {again : Bool} :
    (punctual n start limit).Triple .monitor A
      ((punctual n start limit).Owning fun _ => Clock start limit) (pure again)
      fun again H x => ∀ y, (punctual n start limit).rely .monitor H x y → H = ∅ → again = true →
        Clock start limit y :=
  triple_pure fun _ _ hx _ hy _ _ => clock_later hy hx.2

theorem monitorLoop_clock :
    (punctual n start limit).Triple .monitor A (fun H x => H = ∅ ∧ Clock start limit x)
      (monitorLoop n)
      fun again H x => ∀ y, (punctual n start limit).rely .monitor H x y → H = ∅ → again = true →
        Clock start limit y := by
  apply triple_bind _ (checkIsDeadFrom_late (Nat.zero_add n))
  intro result
  split
  · exact triple_pure fun _ _ _ _ _ _ hagain => by cases hagain
  · next hresult =>
      have hfull : (punctual n start limit).Tidy .monitor A (fun _ => Clock start limit)
          (write fun table => { table with full := 1 }) :=
        monitor_quiet (fun _ => ⟨rfl, rfl, rfl, rfl, rfl⟩) fun _ => rfl
      refine (triple_bind _ (checkIsFull_tidy punctual_sound carried_clock hfull) fun result => ?_).mono
        (fun H x hx => ?_) fun _ _ _ => id
      · split
        · exact clock_end
        · exact clock_end
      · obtain ⟨rfl, hclock⟩ := hx (not_not.mp hresult)
        exact owning_empty hclock

theorem monitorStart_clock :
    (punctual n start limit).Triple .monitor A
      ((punctual n start limit).Owning fun _ => Clock start limit) monitorStart
      fun again H x => ∀ y, (punctual n start limit).rely .monitor H x y → H = ∅ → again = true →
        Clock start limit y :=
  triple_bind _ (ftUsleep_tidy punctual_sound carried_clock.stable) fun _ => clock_end

end Monitor

/-- The monitor starts a round with the clock past the start. -/
private def roundClock (start limit : Nat) {n : Nat} (t : ThreadId n) (x : Table × Log) : Prop :=
  t = .monitor → Clock start limit x

private theorem good_start {n : Nat} (hn : 2 ≤ n) {table : Table}
    (hstart : table.start ≤ table.time) (hbound : table.time + table.timeToDie < 2 ^ 64)
    (hlast : table.lastMeal = fun _ => 0) :
    Good (punctual n table.start table.timeToDie) (may n) (roundClock table.start table.timeToDie)
      (startConfig n table) {} := by
  have hphilo : ∀ {i : Fin n} {p : Prog Mutex Table Bool} {x : Table × Log},
      (punctual n table.start table.timeToDie).Tidy (.philo i)
        (roundClock table.start table.timeToDie (.philo i)) (fun _ _ => True) p →
      (punctual n table.start table.timeToDie).Keeps (.philo i)
        (roundClock table.start table.timeToDie (.philo i)) p ∅ x := fun h =>
    Triple.keeps (h.mono (fun _ _ => id) fun _ _ _ _ _ _ _ _ ht => by cases ht)
      (owning_empty trivial)
  have hheld : ∀ t, (startConfig n table).held t = ∅ := fun t =>
    Set.eq_empty_of_forall_notMem fun m hm => by cases hm
  have hclock : Clock table.start table.timeToDie (table, {}) := ⟨rfl, hstart, hbound⟩
  refine ⟨disciplined_start hn table, fun m _ _ => ?_, fun t => ?_, fun t x hround => ?_⟩
  · exact ⟨rfl, hbound, nofun, nofun, fun i _ hset => absurd (congrFun hlast i) hset⟩
  · rw [hheld]
    cases t with
    | philo i => exact hphilo routineStart_tidy
    | monitor =>
        exact Triple.keeps (monitorStart_clock.mono (fun _ _ => id)
          fun _ _ _ hpost y hy hH hagain _ => hpost y hy hH hagain)
          (owning_empty hclock)
  · cases t with
    | philo i =>
        exact hphilo (routineLoop_tidy punctual_sound carried_true
          (fun _ _ _ => printSection_tidy) mealSection_tidy)
    | monitor =>
        exact Triple.keeps (monitorLoop_clock.mono (fun _ _ => id)
          fun _ _ _ hpost y hy hH hagain _ => hpost y hy hH hagain) ⟨rfl, hround rfl⟩

/-- Where the monitor checks nobody before his thread has set his deadline, whom it
reports dead had begun more than `time_to_die` before, and so had the last meal that
the monitor could see; that is his last one if he has recorded none since. -/
theorem reports_overdue {n : Nat} (hn : 2 ≤ n) {table : Table}
    (hstart : table.start ≤ table.time) (hbound : table.time + table.timeToDie < 2 ^ 64)
    (hlast : table.lastMeal = fun _ => 0) {c : Config (ThreadId n) Mutex Table} {log : Log}
    (hrun : (punctual n table.start table.timeToDie).Watched (TickBelow table.timeToDie)
      (startConfig n table) {} c log) :
    ∀ r ∈ log.reports, ∀ i, r.id = i + 1 →
      r.Overdue table.start table.timeToDie i r.checked ∧
      (r.meal i = r.checked i → r.Overdue table.start table.timeToDie i r.meal) := by
  have hright : Right table.start table.timeToDie log.reports :=
    hrun.holds punctual_sound (good_start hn hstart hbound hlast)
      (P := fun x => Right table.start table.timeToDie x.2.reports) (fun hguar => hguar.2.2.2)
      (fun _ h => h) fun r hr => by cases hr
  intro r hr i hi
  refine ⟨hright r hr i hi, ?_⟩
  intro hsame
  obtain ⟨b, hb, hbegun, hmeal⟩ := hright r hr i hi
  refine ⟨b, hb, hbegun, ?_⟩
  rw [hsame]
  exact hmeal

private def tableOfTwo : Table := ⟨800, 200, 200, 0, -1, 0, 0, fun _ => 0, fun _ => 0, 0, []⟩

/-- Two philosophers begin, the first is late for his first meal and reported. -/
theorem reports_overdue_late : ∃ (c : Config (ThreadId 2) Mutex Table) (log : Log),
    c.shared.printed = [(811, 1, "died")] ∧
      ∀ r ∈ log.reports, ∀ i, r.id = i + 1 → r.Overdue 0 800 i r.checked ∧
        (r.meal i = r.checked i → r.Overdue 0 800 i r.meal) := by
  have hplay : ∃ c, play
      (fun t table => t ≠ .monitor ∨ table.lastMeal 0 ≠ 0 ∧ table.lastMeal 1 ≠ 0)
      (fun time => time < 2 ^ 63) (startConfig 2 tableOfTwo)
      (List.replicate 6 (.inl (.philo 0)) ++ List.replicate 6 (.inl (.philo 1)) ++
        [.inl .monitor, .inr 811] ++ List.replicate 18 (.inl .monitor)) = some c ∧
        c.shared.printed = [(811, 1, "died")] := ⟨_, rfl, by decide⟩
  obtain ⟨c, hplay, hprinted⟩ := hplay
  have hrun : ∃ log, (punctual 2 tableOfTwo.start tableOfTwo.timeToDie).Watched
      (TickBelow tableOfTwo.timeToDie) (startConfig 2 tableOfTwo) {} c log := by
    refine watched_of_play (fun t program x hok => ?_) (fun table time hle hlt => ?_) .start hplay
    · intro i left rest ht hi _
      have hboth := (of_decide_eq_true hok).resolve_left fun hne => hne ht
      obtain rfl | rfl : i = 0 ∨ i = 1 := by omega
      · exact hboth.1
      · exact hboth.2
    · have hbelow : time < 2 ^ 63 := of_decide_eq_true hlt
      refine ⟨⟨time, hle, rfl⟩, ?_⟩
      change time + 800 < 2 ^ 64
      omega
  obtain ⟨log, hrun⟩ := hrun
  exact ⟨c, log, hprinted, reports_overdue le_rfl le_rfl (by decide) rfl hrun⟩

/-- The monitor has slept its 50 milliseconds before the thread of the first
philosopher has taken a step. -/
theorem reported_before_begun : ∃ trace c, Run Tick (startConfig 2 tableOfTwo) trace c ∧
    c.shared.printed = [(50, 1, "died")] ∧
      (c.threads (.philo 0)).current = routineStart (philo 2 0) := by
  have hplay : ∃ c, play (fun _ _ => true) (fun _ => true) (startConfig 2 tableOfTwo)
      ([.inl .monitor, .inr 50] ++ List.replicate 13 (.inl .monitor)) = some c ∧
        c.shared.printed = [(50, 1, "died")] ∧
        (c.threads (.philo 0)).current = routineStart (philo 2 0) := ⟨_, rfl, by decide, rfl⟩
  obtain ⟨c, hplay, hprinted, hcurrent⟩ := hplay
  have hrun : ∃ trace, Run Tick (startConfig 2 tableOfTwo) trace c :=
    run_of_play (fun table time hle _ => ⟨time, hle, rfl⟩) hplay
  obtain ⟨trace, hrun⟩ := hrun
  exact ⟨trace, c, hrun, hprinted, hcurrent⟩

end FortyTwo.Philosophers
