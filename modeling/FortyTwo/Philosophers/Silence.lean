import FortyTwo.Philosophers.Sections

/-!
What is printed behind a "died". The monitor sets `dead` in a section of its own,
after the one that prints; a philosopher who enters `print_message` between the two
is printed.
-/

namespace FortyTwo.Philosophers

open Foundation Foundation.Prog Foundation.Contract

def Died (printed : List (Nat × Nat × String)) : Prop := ∃ entry ∈ printed, entry.2.2 = "died"

/-- Nothing stands behind a "died". -/
def Silent (printed : List (Nat × Nat × String)) : Prop :=
  ∀ before entry after, printed = before ++ entry :: after → entry.2.2 = "died" → after = []

/-- A death is printed, and `dead` is not set. -/
def Gap (table : Table) : Prop := Died table.printed ∧ table.dead = 0

section Printed

variable {printed : List (Nat × Nat × String)} {entry : Nat × Nat × String}

theorem died_concat : Died (printed ++ [entry]) ↔ Died printed ∨ entry.2.2 = "died" := by
  simp [Died, or_and_right, exists_or]

theorem Silent.concat (h : ¬ Died printed) : Silent (printed ++ [entry]) := by
  intro before e after heq he
  rcases List.eq_nil_or_concat after with rfl | ⟨rest, last, rfl⟩
  · rfl
  · rw [List.concat_eq_append, ← List.cons_append, ← List.append_assoc] at heq
    obtain ⟨rfl, -⟩ := List.append_inj' heq rfl
    exact absurd ⟨e, by simp, he⟩ h

end Printed

/-- No philosopher enters the section of `print_message` in the gap. -/
def OutsideGap {n : Nat} (t : ThreadId n) (program : Prog Mutex Table Bool) (table : Table) : Prop :=
  ∀ i philo message time rest, t = .philo i →
    program = (printSection philo message time >>= rest) → ¬ Gap table

/-- Under `deadmutex` the flag and what is printed stay; a single philosopher is
printed without it. Only the monitor prints a death. -/
def silence (n : Nat) : Contract (ThreadId n) Mutex Table Unit where
  note _ _ _ _ _ := ()
  permit t program x := OutsideGap t program x.1
  inv _ _ := True
  rely t H x y :=
    (n ≠ 1 → .deadmutex ∈ H → y.1.dead = x.1.dead ∧ y.1.printed = x.1.printed) ∧
      (t = .monitor → Died y.1.printed → Died x.1.printed)
  guar t H x y :=
    (n ≠ 1 → .deadmutex ∉ H → y.1.dead = x.1.dead ∧ y.1.printed = x.1.printed) ∧
      (t ≠ .monitor → Died y.1.printed → Died x.1.printed) ∧
      (Silent x.1.printed → Silent y.1.printed)

variable {n : Nat}

private theorem guar_of_same {t : ThreadId n} {H : Set Mutex} {x y : Table × Unit}
    (hdead : y.1.dead = x.1.dead) (hprinted : y.1.printed = x.1.printed) :
    (silence n).guar t H x y :=
  ⟨fun _ _ => ⟨hdead, hprinted⟩, fun _ => by rw [hprinted]; exact id,
    by rw [hprinted]; exact id⟩

theorem silence_sound : (silence n).Sound Tick where
  refl _ _ _ := ⟨fun _ _ => ⟨rfl, rfl⟩, fun _ => id⟩
  trans hxy hyz := by
    refine ⟨fun hn hm => ?_, fun ht hdied => hxy.2 ht (hyz.2 ht hdied)⟩
    obtain ⟨hdead, hprinted⟩ := hxy.1 hn hm
    obtain ⟨hdead', hprinted'⟩ := hyz.1 hn hm
    exact ⟨hdead'.trans hdead, hprinted'.trans hprinted⟩
  compat hne hdisjoint hguar :=
    ⟨fun hn hm => hguar.1 hn fun hm' => hdisjoint _ hm' hm,
      fun ht => hguar.2.1 fun heq => hne (ht.trans heq.symm)⟩
  rely_environment _ _ _ htick := by
    obtain ⟨time, -, rfl⟩ := htick
    exact ⟨fun _ _ => ⟨rfl, rfl⟩, fun _ => id⟩
  idle_guar _ _ _ := guar_of_same rfl rfl
  idle_rely _ _ _ := ⟨fun _ _ => ⟨rfl, rfl⟩, fun _ => id⟩
  inv_guar _ _ := id
  inv_rely _ _ := id
  inv_environment _ := id

section Threads

variable {t : ThreadId n} {A : Table × Unit → Prop} {P : Set Mutex → Table × Unit → Prop}

private theorem owning_iff {H : Set Mutex} {x : Table × Unit} : (silence n).Owning P H x ↔ P H x :=
  ⟨And.right, fun h => ⟨fun _ _ => trivial, h⟩⟩

/-- A write to what is neither printed nor `dead`. -/
theorem quiet_tidy (hP : (silence n).Stable t P) {f : Table → Table}
    (hdead : ∀ table, (f table).dead = table.dead)
    (hprinted : ∀ table, (f table).printed = table.printed)
    (hkeep : ∀ H table, P H (table, ()) → P H (f table, ())) : (silence n).Tidy t A P (write f) :=
  tidy_write silence_sound hP fun H x hx =>
    ⟨guar_of_same (hdead x.1) (hprinted x.1), owning_iff.mpr (hkeep H x.1 (owning_iff.mp hx))⟩

/-- A philosopher who enters outside the gap finds `dead` set or no death printed,
and so it stays until he is done. -/
theorem printSection_philo (hn : n ≠ 1) (i : Fin n) {p : Philo} {message : String} {time : Nat}
    (hmessage : message ≠ "died") :
    (silence n).Tidy (.philo i) A (fun _ _ => True) (printSection p message time) := by
  let entered : Set Mutex → Table × Unit → Prop := fun H x => .deadmutex ∈ H ∧ ¬ Gap x.1
  have hstay : (silence n).Stable (.philo i) entered := by
    intro H x y hy hx
    obtain ⟨hdead, hprinted⟩ := hy.1 hn hx.1
    refine ⟨hx.1, ?_⟩
    rw [Gap, hdead, hprinted]
    exact hx.2
  have hrelease : (silence n).Triple (.philo i) A (fun _ _ => True)
      (release .mealmutex >>= fun _ => release .deadmutex) fun _ =>
        (silence n).Owning fun _ _ => True :=
    triple_bind (fun _ _ _ => True) (triple_release fun _ _ _ _ _ _ => ⟨trivial, trivial⟩) fun _ =>
      triple_release fun _ _ _ _ _ _ => ⟨trivial, fun _ _ => trivial, trivial⟩
  refine triple_acquire_bind entered (fun k H x y _ hy hpermit _ => ?_) ?_
  · exact ⟨Set.mem_insert _ _, hpermit i p message time k rfl rfl⟩
  refine triple_bind (fun _ => entered) (triple_acquire fun H x y hx hy _ => ?_) fun _ => ?_
  · exact ⟨Set.mem_insert_of_mem _ hx.1, (hstay hy hx).2⟩
  refine triple_bind (fun dead H x => entered H x ∧ x.1.dead = dead)
    (triple_read silence_sound fun H x y hx hy => ⟨hstay hy hx, rfl⟩) fun dead => ?_
  have hstay' : (silence n).Stable (.philo i) fun H x => entered H x ∧ x.1.dead = dead := by
    intro H x y hy hx
    exact ⟨hstay hy hx.1, (hy.1 hn hx.1.1).1.trans hx.2⟩
  refine triple_bind (fun _ H x => entered H x ∧ x.1.dead = dead)
    (triple_read silence_sound fun H x y hx hy => hstay' hy hx) fun full => ?_
  split
  · next hnone =>
      refine triple_bind (fun _ _ _ => True) (triple_write fun H x y hx hy => ?_)
        fun _ => hrelease
      obtain ⟨⟨hm, hgap⟩, hdead⟩ := hstay' hy hx
      have hdied : ¬ Died y.1.printed := fun h => hgap ⟨h, hdead.trans hnone.1⟩
      refine ⟨⟨fun _ hnot => absurd hm hnot, fun _ h => ?_, fun _ => Silent.concat hdied⟩, trivial⟩
      exact (died_concat.mp h).resolve_right hmessage
  · exact hrelease.mono (fun _ _ _ => trivial) fun _ _ _ => id

end Threads

section Monitor

private def Alive (_ : Set Mutex) (x : Table × Unit) : Prop := ¬ Died x.1.printed

private theorem alive_later {H : Set Mutex} {x y : Table × Unit}
    (hy : (silence n).rely .monitor H x y) (hx : ¬ Died x.1.printed) : ¬ Died y.1.printed :=
  fun hdied => hx (hy.2 rfl hdied)

private theorem carried_alive : Carried (silence n) .monitor Alive where
  stable hy hx := alive_later hy hx
  insert := id
  erase := id

variable {A : Table × Unit → Prop} {time : Nat}

/-- The monitor prints the first death. -/
theorem printSection_died (p : Philo) :
    (silence n).Triple .monitor A Alive (printSection p "died" time) fun _ _ _ => True := by
  have hstay : (silence n).Stable .monitor fun H x => .deadmutex ∈ H ∧ Alive H x :=
    fun hy hx => ⟨hx.1, alive_later hy hx.2⟩
  have hrelease : (silence n).Triple .monitor A (fun _ _ => True)
      (release .mealmutex >>= fun _ => release .deadmutex) fun _ _ _ => True :=
    triple_bind (fun _ _ _ => True) (triple_release fun _ _ _ _ _ _ => ⟨trivial, trivial⟩) fun _ =>
      triple_release fun _ _ _ _ _ _ => ⟨trivial, trivial⟩
  refine triple_bind (fun _ H x => .deadmutex ∈ H ∧ Alive H x)
    (triple_acquire fun H x y hx hy _ => ?_) fun _ => ?_
  · exact ⟨Set.mem_insert _ _, alive_later hy hx⟩
  refine triple_bind (fun _ H x => .deadmutex ∈ H ∧ Alive H x)
    (triple_acquire fun H x y hx hy _ => ?_) fun _ => ?_
  · exact ⟨Set.mem_insert_of_mem _ hx.1, alive_later hy hx.2⟩
  refine triple_bind (fun _ H x => .deadmutex ∈ H ∧ Alive H x)
    (triple_read silence_sound fun H x y hx hy => hstay hy hx) fun dead => ?_
  refine triple_bind (fun _ H x => .deadmutex ∈ H ∧ Alive H x)
    (triple_read silence_sound fun H x y hx hy => hstay hy hx) fun full => ?_
  split
  · refine triple_bind (fun _ _ _ => True) (triple_write fun H x y hx hy => ?_) fun _ => hrelease
    obtain ⟨hm, halive⟩ := hstay hy hx
    exact ⟨⟨fun _ hnot => absurd hm hnot, fun h => absurd rfl h, fun _ => Silent.concat halive⟩,
      trivial⟩
  · exact hrelease.mono (fun _ _ _ => trivial) fun _ _ _ => id

theorem checkIsDeadFrom_alive {i left : Nat} :
    (silence n).Triple .monitor A ((silence n).Owning Alive) (checkIsDeadFrom n i left)
      fun result H x => result = 0 → (silence n).Owning Alive H x := by
  induction left generalizing i with
  | zero => exact triple_pure fun _ _ hx _ => hx
  | succ left ih =>
      apply triple_bind _ (acquire_tidy silence_sound carried_alive)
      intro _
      apply triple_bind _ (tidy_read silence_sound carried_alive.stable)
      intro now
      apply triple_bind _ (tidy_read silence_sound carried_alive.stable)
      intro lastMeal
      split
      · apply triple_bind _ (release_tidy silence_sound carried_alive)
        intro _
        rw [printMessage_eq]
        have hprint : (silence n).Triple .monitor A ((silence n).Owning Alive)
            (getTime >>= fun now => read (·.start) >>= fun start =>
              printSection (philo n i) "died" (sizeSub now start)) fun _ _ _ => True :=
          triple_bind _ (tidy_read silence_sound carried_alive.stable) fun _ =>
            triple_bind _ (tidy_read silence_sound carried_alive.stable) fun _ =>
              (printSection_died _).mono (fun _ _ => owning_iff.mp) fun _ _ _ => id
        apply triple_bind _ hprint
        intro _
        refine (setDead_triple (fun _ => trivial) fun H x hm => ?_).mono (fun _ _ => id)
          fun _ _ _ hone hzero => absurd (hone.symm.trans hzero) (by decide)
        exact ⟨fun _ hnot => absurd hm hnot, fun _ => id, id⟩
      · exact triple_bind _ (release_tidy silence_sound carried_alive) fun _ => ih

/-- The end of a round, where another one starts only if no death is printed. -/
private theorem alive_end {again : Bool} :
    (silence n).Triple .monitor A ((silence n).Owning Alive) (pure again)
      fun again H x => ∀ y, (silence n).rely .monitor H x y → H = ∅ → again = true →
        ¬ Died y.1.printed :=
  triple_pure fun _ _ hx _ hy _ _ => alive_later hy (owning_iff.mp hx)

theorem monitorLoop_alive :
    (silence n).Triple .monitor A ((silence n).Owning Alive) (monitorLoop n)
      fun again H x => ∀ y, (silence n).rely .monitor H x y → H = ∅ → again = true →
        ¬ Died y.1.printed := by
  apply triple_bind _ checkIsDeadFrom_alive
  intro result
  split
  · exact triple_pure fun _ _ _ _ _ _ hagain => by cases hagain
  · next hresult =>
      have hfull : (silence n).Tidy .monitor A Alive (write fun table => { table with full := 1 }) :=
        quiet_tidy carried_alive.stable (fun _ => rfl) (fun _ => rfl) fun _ _ => id
      refine (triple_bind _ (checkIsFull_tidy silence_sound carried_alive hfull) fun result => ?_).mono
        (fun H x hx => hx (not_not.mp hresult)) fun _ _ _ => id
      split
      · exact alive_end
      · exact alive_end

theorem monitorStart_alive :
    (silence n).Triple .monitor A ((silence n).Owning Alive) monitorStart
      fun again H x => ∀ y, (silence n).rely .monitor H x y → H = ∅ → again = true →
        ¬ Died y.1.printed :=
  triple_bind _ (ftUsleep_tidy silence_sound carried_alive.stable) fun _ => alive_end

end Monitor

section CaseOne

variable {A : Table × Unit → Prop}

private theorem announce_alive {message : String} :
    (silence 1).Triple .monitor A Alive (announce message)
      fun _ H x => message ≠ "died" → Alive H x := by
  refine triple_bind (fun _ => Alive) (triple_read silence_sound fun _ _ _ hx hy => ?_) fun now => ?_
  · exact alive_later hy hx
  refine triple_bind (fun _ => Alive)
    (triple_read silence_sound fun _ _ _ hx hy => alive_later hy hx) fun start => ?_
  apply triple_write
  intro H x y hx hy
  have halive : ¬ Died y.1.printed := alive_later hy hx
  refine ⟨⟨fun hn => absurd rfl hn, fun ht => absurd rfl ht, fun _ => Silent.concat halive⟩, ?_⟩
  exact fun hmessage hdied => (died_concat.mp hdied).elim halive hmessage

theorem caseOne_alive :
    (silence 1).Triple .monitor A Alive caseOne
      fun again H x => ∀ y, (silence 1).rely .monitor H x y → H = ∅ → again = true →
        ¬ Died y.1.printed := by
  refine triple_bind (fun _ => Alive) (triple_read silence_sound fun _ _ _ hx hy => ?_) fun now => ?_
  · exact alive_later hy hx
  refine triple_bind (fun _ => Alive) (triple_write fun H x y hx hy => ?_) fun _ => ?_
  · exact ⟨guar_of_same rfl rfl, alive_later hy hx⟩
  refine triple_bind (fun _ => Alive)
    (announce_alive.mono (fun _ _ => id) fun _ _ _ h => h (by decide)) fun _ => ?_
  refine triple_bind (fun _ => Alive)
    (triple_read silence_sound fun _ _ _ hx hy => alive_later hy hx) fun timeToDie => ?_
  refine triple_bind (fun _ => Alive) ((ftUsleep_tidy silence_sound carried_alive.stable).mono
    (fun _ _ => owning_iff.mpr) fun _ _ _ => owning_iff.mp) fun _ => ?_
  refine triple_bind (fun _ _ _ => True)
    (announce_alive.mono (fun _ _ => id) fun _ _ _ _ => trivial) fun _ => ?_
  exact triple_pure fun _ _ _ _ _ _ hagain => by cases hagain

end CaseOne

private theorem caseOne_safe {t : ThreadId 1} : caseOne.Safe (may 1 t) ∅ fun H _ => H = ∅ := by
  simp only [caseOne, announce, getTime, ftUsleep, safe_bind]
  exact fun _ _ _ _ _ _ _ _ _ _ => rfl

theorem mainConfig_disciplined (n : Nat) (table : Table) :
    Disciplined (may n) (mainConfig n table) := by
  have hheld : ∀ t, (mainConfig n table).held t = ∅ := fun t =>
    Set.eq_empty_of_forall_notMem fun m hm => by
      unfold mainConfig at hm
      split at hm
      · cases hm
      · cases hm
  intro t
  rw [hheld, mainConfig]
  by_cases hn : n = 1
  · subst hn
    cases t with
    | philo i => exact ⟨rfl, rfl⟩
    | monitor => exact ⟨caseOne_safe, rfl⟩
  · rw [if_neg hn]
    cases t with
    | philo i =>
        have hi := i.isLt
        exact ⟨routineStart_safe _, routineLoop_safe (by omega)⟩
    | monitor => exact ⟨safe_bind.mpr (ftUsleep_safe rfl), monitorLoop_safe⟩

private theorem philo_tidy (hn : n ≠ 1) (i : Fin n) {A : Table × Unit → Prop} :
    (silence n).Tidy (.philo i) A (fun _ _ => True) (routineStart (philo n i)) ∧
      (silence n).Tidy (.philo i) A (fun _ _ => True) (routineLoop (philo n i)) := by
  have hP : Carried (silence n) (.philo i) fun _ _ => True := carried_true
  have hpostpone : (silence n).Tidy (.philo i) A (fun _ _ => True) (postpone (philo n i)) :=
    tidy_bind (tidy_read silence_sound hP.stable) fun now =>
      tidy_bind (tidy_read silence_sound hP.stable) fun timeToDie =>
        quiet_tidy hP.stable (fun _ => rfl) (fun _ => rfl) fun _ _ => id
  constructor
  · apply tidy_bind (acquire_tidy silence_sound hP)
    intro _
    apply tidy_bind hpostpone
    intro _
    exact tidy_bind (release_tidy silence_sound hP) fun _ => tidy_pure
  · apply routineLoop_tidy silence_sound hP (fun _ _ hmessage => printSection_philo hn i hmessage)
    apply tidy_bind (acquire_tidy silence_sound hP)
    intro _
    refine tidy_bind (quiet_tidy hP.stable (fun _ => rfl) (fun _ => rfl) fun _ _ => id) fun _ => ?_
    exact tidy_bind hpostpone fun _ => release_tidy silence_sound hP

/-- A round of each thread starts with no death printed if it is the monitor's. -/
private def roundStart (t : ThreadId n) (x : Table × Unit) : Prop :=
  t = .monitor → ¬ Died x.1.printed

private theorem philo_keeps {i : Fin n} {p : Prog Mutex Table Bool} {H : Set Mutex}
    {x : Table × Unit}
    (h : (silence n).Tidy (.philo i) (roundStart (.philo i)) (fun _ _ => True) p) :
    (silence n).Keeps (.philo i) (roundStart (.philo i)) p H x :=
  Triple.keeps (h.mono (fun _ _ => id) fun _ _ _ _ _ _ _ _ ht => by cases ht)
    (owning_iff.mpr trivial)

private theorem monitor_keeps {p : Prog Mutex Table Bool} {P : Set Mutex → Table × Unit → Prop}
    (h : (silence n).Triple .monitor (roundStart (.monitor : ThreadId n)) P p
      fun again H x => ∀ y, (silence n).rely .monitor H x y → H = ∅ → again = true →
        ¬ Died y.1.printed) {H : Set Mutex} {x : Table × Unit} (hx : P H x) :
    (silence n).Keeps .monitor (roundStart (.monitor : ThreadId n)) p H x :=
  Triple.keeps (h.mono (fun _ _ => id) fun _ _ _ hpost y hy hH hagain _ => hpost y hy hH hagain) hx

private theorem good_main {table : Table} (hnone : ¬ Died table.printed) :
    Good (silence n) (may n) roundStart (mainConfig n table) () := by
  have hdisciplined := mainConfig_disciplined n table
  have hfinished : ∀ {t : ThreadId n} {H x},
      (silence n).Keeps t (roundStart t) (.done false) H x := fun _ _ _ h => by cases h
  by_cases hn : n = 1
  · subst hn
    refine ⟨hdisciplined, fun _ _ => trivial, fun t => ?_, fun t x _ => ?_⟩
    · cases t with
      | philo i => exact hfinished
      | monitor => exact monitor_keeps caseOne_alive hnone
    · cases t with
      | philo i => exact hfinished
      | monitor => exact hfinished
  · have hmain : mainConfig n table = startConfig n table := if_neg hn
    rw [hmain] at hdisciplined ⊢
    refine ⟨hdisciplined, fun _ _ => trivial, fun t => ?_, fun t x hround => ?_⟩
    · cases t with
      | philo i => exact philo_keeps (philo_tidy hn i).1
      | monitor => exact monitor_keeps monitorStart_alive (owning_iff.mpr hnone)
    · cases t with
      | philo i => exact philo_keeps (philo_tidy hn i).2
      | monitor => exact monitor_keeps monitorLoop_alive (owning_iff.mpr (hround rfl))

/-- However many sit at the table and however the threads and the clock go on, nothing
is printed behind a death where no philosopher enters the section of `print_message`
in the gap. -/
theorem silent_outside_gap {table : Table} (hnone : table.printed = [])
    {c : Config (ThreadId n) Mutex Table} {notes : Unit}
    (hrun : (silence n).Watched Tick (mainConfig n table) () c notes) :
    Silent c.shared.printed := by
  have hshared : (mainConfig n table).shared = table := by
    unfold mainConfig
    split
    · rfl
    · rfl
  have hdied : ¬ Died table.printed := by simp [Died, hnone]
  have hsilent : Silent (mainConfig n table).shared.printed := by
    rw [hshared]
    exact fun before entry after heq he => absurd ⟨entry, by rw [heq]; simp, he⟩ hdied
  refine hrun.holds silence_sound (good_main hdied) (P := fun x => Silent x.1.printed)
    (fun hguar => hguar.2.2) (fun htick h => ?_) hsilent
  obtain ⟨time, -, rfl⟩ := htick
  exact h

private def table800 : Table := ⟨800, 200, 200, 0, -1, 0, 0, fun _ => 0, fun _ => 0, 0, []⟩

/-- A single philosopher. -/
theorem silent_outside_gap_one : ∃ c : Config (ThreadId 1) Mutex Table,
    c.shared.printed = [(0, 1, "has taken a fork"), (800, 1, "died")] ∧
      Silent c.shared.printed := by
  have hplay : ∃ c, play (fun t _ => t = ThreadId.monitor) (fun _ => true) (mainConfig 1 table800)
      (List.replicate 7 (.inl .monitor) ++ [.inr 800] ++ List.replicate 4 (.inl .monitor)) = some c ∧
        c.shared.printed = [(0, 1, "has taken a fork"), (800, 1, "died")] := ⟨_, rfl, by decide⟩
  obtain ⟨c, hplay, hprinted⟩ := hplay
  have hrun : ∃ notes, (silence 1).Watched Tick (mainConfig 1 table800) () c notes := by
    refine watched_of_play (fun t program x ht => ?_)
      (fun table time hle _ => ⟨time, hle, rfl⟩) Watched.start hplay
    intro i _ _ _ _ hi
    subst hi
    cases ht
  obtain ⟨notes, hrun⟩ := hrun
  exact ⟨c, hprinted, silent_outside_gap rfl hrun⟩

/-- The monitor prints that the first of two philosophers died; before it sets `dead`
he enters `print_message` himself. -/
theorem printed_in_gap : ∃ trace c, Run Tick (mainConfig 2 table800) trace c ∧
    c.shared.printed = [(811, 1, "died"), (811, 1, "is thinking")] ∧ ¬ Silent c.shared.printed := by
  have hplay : ∃ c, play (fun _ _ => true) (fun _ => true) (mainConfig 2 table800)
      (List.replicate 6 (.inl (.philo 0)) ++ List.replicate 6 (.inl (.philo 1)) ++
        [.inl .monitor, .inr 811] ++ List.replicate 15 (.inl .monitor) ++
        List.replicate 8 (.inl (.philo 0))) = some c ∧
        c.shared.printed = [(811, 1, "died"), (811, 1, "is thinking")] := ⟨_, rfl, by decide⟩
  obtain ⟨c, hplay, hprinted⟩ := hplay
  have hrun : ∃ trace, Run Tick (mainConfig 2 table800) trace c :=
    run_of_play (fun table time hle _ => ⟨time, hle, rfl⟩) hplay
  obtain ⟨trace, hrun⟩ := hrun
  refine ⟨trace, c, hrun, hprinted, ?_⟩
  intro h
  rw [hprinted] at h
  exact absurd (h [] _ _ rfl rfl) (by decide)

end FortyTwo.Philosophers
