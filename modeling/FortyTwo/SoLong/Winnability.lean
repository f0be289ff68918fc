import FortyTwo.SoLong.GameInvariants

/-!
The flood fill of `check_map` against the game: the filled cells are those that
can be walked to, and a map with nothing left in it is one that can be won.
-/

namespace FortyTwo.SoLong

open Foundation

def freeCells (map : Map) : Finset Point :=
  (map.points.filter fun p => map.cell p ≠ some '1').toFinset

theorem mem_freeCells {map : Map} {p : Point} :
    p ∈ freeCells map ↔ ∃ c, map.cell p = some c ∧ c ≠ '1' := by
  simp only [freeCells, List.mem_toFinset, List.mem_filter, Grid.mem_points, decide_eq_true_eq]
  constructor
  · rintro ⟨⟨c, hc⟩, hwall⟩
    exact ⟨c, hc, fun h => hwall (h ▸ hc)⟩
  · rintro ⟨c, hc, hwall⟩
    refine ⟨⟨c, hc⟩, fun h => hwall ?_⟩
    rw [hc] at h
    exact Option.some.inj h

/-- The cells that `flood_fill` goes on to, in its order. -/
def nextCells (p : Point) : List Point := [p.right, p.left, p.down, p.up]

theorem mem_nextCells {p q : Point} : q ∈ nextCells p ↔ p.Adjacent q := by
  simp only [nextCells, List.mem_cons, List.not_mem_nil, or_false, Point.Adjacent]
  tauto

/-- What `flood_fill` does at a cell before it goes on. -/
def fillCell (map : Map) (p : Point) : Except Stop (Option Map) := do
  let some row ← rowAt map p.y | return none
  let c ← charAt row p.x
  if c = '\x00' ∨ c = '1' ∨ c = 'X' then return none
  return some (map.write p 'X')

theorem floodFill_eq_flood (fuel : Nat) (p : Point) (map : Map) :
    floodFill fuel p.x p.y map = flood .outOfFuel fillCell nextCells fuel map p := by
  induction fuel generalizing p map with
  | zero => rfl
  | succ fuel ih =>
      rw [floodFill, flood, fillCell]
      cases rowAt map p.y with
      | error stop => rfl
      | ok row =>
          cases row with
          | none => rfl
          | some row =>
              change (charAt row p.x >>= _) = (charAt row p.x >>= _) >>= _
              cases charAt row p.x with
              | error stop => rfl
              | ok c =>
                  by_cases hc : c = '\x00' ∨ c = '1' ∨ c = 'X'
                  · simp only [if_pos hc, bind, Except.bind, pure, Except.pure]
                  · change (if _ then _ else _) = Except.bind (if _ then _ else _) _
                    rw [if_neg hc, if_neg hc]
                    change _ = (nextCells p).foldlM _ _
                    simp only [nextCells, List.foldlM_cons, List.foldlM_nil, ← ih, bind_pure]
                    rfl

/-- The visit of a cell fills it, unless there is a wall or it is filled. -/
def FillsCells (visit : Map → Point → Except Stop (Option Map)) : Prop :=
  ∀ {map p c}, map.cell p = some c → visit map p =
    .ok (if c = '\x00' ∨ c = '1' ∨ c = 'X' then none else some (map.write p 'X'))

theorem fillCell_of_cell : FillsCells fillCell := by
  intro map p c h
  obtain ⟨row, hrow, hc⟩ := reads_cell h
  rw [fillCell, hrow]
  change (charAt row p.x >>= _) = _
  rw [hc]
  change (if _ then _ else _) = _
  split
  · rfl
  · rfl

private theorem fill_visits {visit : Map → Point → Except Stop (Option Map)}
    (hvisit : FillsCells visit) {original : Map} {chars : MapChars}
    (h : Accepted original chars) :
    Visits visit nextCells Stop.outOfBounds (freeCells original) (fun _ => True)
      (fun p => ∃ c, original.cell p = some c) (Grid.Marked 'X' original) where
  skip {map M p} hmap hread hskip := by
    obtain ⟨c, hc⟩ := hread
    by_cases hp : p ∈ M
    · rw [hvisit (hmap.marked hp), if_pos (by simp)]
    · have hwall : c = '1' := by
        by_contra hfree
        exact hskip.elim (fun hout => hout (mem_freeCells.mpr ⟨c, hc, hfree⟩)) hp
      rw [hvisit ((hmap.kept hp).trans hc), if_pos (by simp [hwall])]
  mark {map M p} hmap hp hnew _ := by
    obtain ⟨c, hc, hwall⟩ := mem_freeCells.mp hp
    have hcell := (hmap.kept hnew).trans hc
    have htile : ¬ (c = '\x00' ∨ c = '1' ∨ c = 'X') := by
      rcases h.tile hc with rfl | rfl | rfl | rfl | rfl
      · decide
      · exact absurd rfl hwall
      · decide
      · decide
      · decide
    exact ⟨map.write p 'X', by rw [hvisit hcell, if_neg htile], hmap.write hcell⟩
  stop _ _ _ hgood := absurd trivial hgood
  readable {p q} hp _ hq := by
    obtain ⟨c, hc, hwall⟩ := mem_freeCells.mp hp
    exact h.enclosed hc hwall (mem_nextCells.mp hq)

/-- The player of the map can walk to `p`. -/
def Walkable (map : Map) (chars : MapChars) (p : Point) : Prop :=
  Reaches nextCells (freeCells map) chars.playerAt p

theorem playerAt_free {map : Map} {chars : MapChars} (h : Accepted map chars) :
    chars.playerAt ∈ freeCells map :=
  mem_freeCells.mpr ⟨'P', (h.player _).mpr rfl, by decide⟩

theorem flood_fills {visit : Map → Point → Except Stop (Option Map)} (hvisit : FillsCells visit)
    {map : Map} {chars : MapChars} (h : Accepted map chars) {fuel : Nat}
    (hfuel : (freeCells map).card < fuel) :
    ∃ filled, flood .outOfFuel visit nextCells fuel map chars.playerAt = .ok filled ∧
      Grid.Marked 'X' map filled {p | Walkable map chars p} := by
  have hcard : ((freeCells map : Set Point) \ ∅).ncard < fuel := by
    rw [Set.sdiff_empty, Set.ncard_coe_finset]
    exact hfuel
  have hrun : Searched nextCells (freeCells map) (fun _ => True)
      (Grid.Marked 'X' map) Stop.outOfBounds ∅ [chars.playerAt]
      (flood .outOfFuel visit nextCells fuel map chars.playerAt) :=
    flood_searched (fill_visits hvisit h) fuel map ∅ _ (Grid.Marked.start 'X' map)
      ⟨'P', (h.player _).mpr rfl⟩ hcard
  rcases hrun with ⟨filled, M, hfilled, hrep, hflooded⟩ | ⟨-, p, -, hbad⟩
  · have hM : M = {p | Walkable map chars p} :=
      Set.ext fun p => hflooded.mem_iff (playerAt_free h)
    exact ⟨filled, hfilled, hM ▸ hrep⟩
  · exact absurd trivial hbad

/-- The flood fill runs through and fills what can be walked to. -/
theorem floodFill_fills {map : Map} {chars : MapChars} (h : Accepted map chars) {fuel : Nat}
    (hfuel : (freeCells map).card < fuel) :
    ∃ filled, floodFill fuel chars.playerX chars.playerY map = .ok filled ∧
      Grid.Marked 'X' map filled {p | Walkable map chars p} := by
  obtain ⟨filled, hfilled, hmarked⟩ := flood_fills fillCell_of_cell h hfuel
  exact ⟨filled, (floodFill_eq_flood fuel chars.playerAt map).trans hfilled, hmarked⟩

def Solvable (map : Map) (chars : MapChars) : Prop :=
  ∀ p, map.cell p = some 'E' ∨ map.cell p = some 'C' → Walkable map chars p

theorem any_left_iff {map filled : Map} {chars : MapChars}
    (hfilled : Grid.Marked 'X' map filled {p | Walkable map chars p}) :
    (filled.any fun row => row.contains 'E' || row.contains 'C') = true ↔
      ¬ Solvable map chars := by
  have hleft : (filled.any fun row => row.contains 'E' || row.contains 'C') = true ↔
      ∃ p, filled.cell p = some 'E' ∨ filled.cell p = some 'C' := by
    simp only [List.any_eq_true, Bool.or_eq_true, List.contains_iff_mem, and_or_left, exists_or,
      Grid.exists_mem_iff]
  rw [hleft, Solvable, not_forall]
  constructor
  · rintro ⟨p, hp⟩
    have hnot : ¬ Walkable map chars p := by
      intro hwalk
      rw [hfilled.marked hwalk] at hp
      revert hp
      decide
    rw [hfilled.kept hnot] at hp
    exact ⟨p, fun himp => hnot (himp hp)⟩
  · rintro ⟨p, hp⟩
    rw [Classical.not_imp] at hp
    refine ⟨p, ?_⟩
    rw [hfilled.kept hp.2]
    exact hp.1

/-- Some keys lead to a state in which the game is won. -/
def Winnable (lines : List MapLine) (chars : MapChars) : Prop :=
  ∃ keys, (∀ key ∈ keys, key ∈ movementKeys) ∧
    ∃ vars, play keys (startGame lines chars) = .ok vars ∧ vars.ended = true

/-- Where the player is and what he has taken can be walked to. -/
structure Explored (map : Map) (chars : MapChars) (vars : Vars) : Prop where
  player : Walkable map chars vars.playerAt
  taken : ∀ p, map.cell p = some 'C' → vars.map.cell p = some 'C' ∨ Walkable map chars p

theorem Explored.event {map : Map} {chars : MapChars} {vars next : Vars} {key : Int}
    (haccepted : Accepted map chars) (h : Consistent map chars.exitAt vars)
    (hexplored : Explored map chars vars) (hkey : key ∈ movementKeys)
    (hrun : eventHandler key vars = .ok (true, next)) : Explored map chars next := by
  obtain ⟨q, hq, htarget⟩ := exists_target hkey vars
  obtain ⟨c, hc⟩ := h.neighbour haccepted hq
  obtain ⟨next', hrun', hcases⟩ := event_cases h hq htarget hc
  rw [hrun] at hrun'
  cases hrun'
  rcases hcases with ⟨-, rfl⟩ | ⟨-, hwall, hmoved⟩
  · exact hexplored
  · have hfree : q ∈ freeCells map := by
      obtain ⟨d, hd⟩ := (h.cells q).mp ⟨c, hc⟩
      refine mem_freeCells.mpr ⟨d, hd, ?_⟩
      rintro rfl
      rw [(h.wall q).mpr hd, Option.some.injEq] at hc
      exact hwall hc.symm
    have hreach : Walkable map chars q :=
      Relation.ReflTransGen.tail hexplored.player ⟨mem_nextCells.mpr hq, hfree⟩
    refine ⟨hmoved.playerAt ▸ hreach, ?_⟩
    intro p hp
    rcases hexplored.taken p hp with hstill | hwalk
    · by_cases hpq : p = q
      · exact Or.inr (hpq ▸ hreach)
      · apply Or.inl
        rw [hmoved.cell p, if_neg hpq, if_neg, if_neg]
        · exact hstill
        · rintro rfl
          rw [(h.player _).mpr rfl] at hstill
          exact absurd hstill (by decide)
        · rintro rfl
          rcases h.exit_cell with hcell | hcell
          · rw [hcell] at hstill
            exact absurd hstill (by decide)
          · rw [hcell] at hstill
            exact absurd hstill (by decide)
    · exact Or.inr hwalk

theorem Explored.play {map : Map} {chars : MapChars} {vars next : Vars} {keys : List Int}
    (haccepted : Accepted map chars) (h : Consistent map chars.exitAt vars)
    (hexplored : Explored map chars vars) (hkeys : ∀ key ∈ keys, key ∈ movementKeys)
    (hrun : play keys vars = .ok next) : Explored map chars next := by
  induction keys generalizing vars with
  | nil =>
      cases hrun
      exact hexplored
  | cons key rest ih =>
      have hkey := hkeys key List.mem_cons_self
      obtain ⟨mid, hevent, hmid⟩ := h.event haccepted hkey
      rw [SoLong.play, List.foldlM_cons, hevent] at hrun
      exact ih hmid (hexplored.event haccepted h hkey hevent)
        (fun k hk => hkeys k (List.mem_cons_of_mem _ hk)) hrun

theorem explored_start {map : Map} {chars : MapChars} (lenY lenX : Nat) :
    Explored map chars (game map chars lenY lenX) where
  player := Relation.ReflTransGen.refl
  taken _ hp := Or.inl hp

/-- Who wins has walked to the exit and to all there was to take. -/
theorem solvable_of_ended {map : Map} {chars : MapChars} {vars : Vars}
    (haccepted : Accepted map chars) (h : Consistent map chars.exitAt vars)
    (hexplored : Explored map chars vars) (hended : vars.ended = true) : Solvable map chars := by
  obtain ⟨hat, hzero⟩ := h.ended.mp hended
  rintro p (hp | hp)
  · rw [(haccepted.exit p).mp hp, ← hat]
    exact hexplored.player
  · apply (hexplored.taken p hp).resolve_left
    intro hleft
    have hpos := Grid.count_pos_iff.mpr ⟨p, hleft⟩
    have hcount := h.collectible
    omega

theorem reaches_symm {map : Map} {p q : Point} (hp : p ∈ freeCells map)
    (h : Reaches nextCells (freeCells map) p q) : Reaches nextCells (freeCells map) q p := by
  induction h with
  | refl => exact Relation.ReflTransGen.refl
  | @tail mid last hbefore hlast ih =>
      have hmid : mid ∈ freeCells map := by
        rcases Relation.ReflTransGen.cases_tail hbefore with rfl | ⟨_, _, hstep⟩
        · exact hp
        · exact hstep.2
      refine Relation.ReflTransGen.head ⟨mem_nextCells.mpr ?_, hmid⟩ ih
      exact (mem_nextCells.mp hlast.1).symm

/-- What a walk may do to the state on its way. -/
structure Walked (map : Map) (chars : MapChars) (vars next : Vars) : Prop where
  consistent : Consistent map chars.exitAt next
  left : ∀ p, next.map.cell p = some 'C' → vars.map.cell p = some 'C'

theorem exists_step {map : Map} {chars : MapChars} {vars : Vars} {q : Point}
    (h : Consistent map chars.exitAt vars) (hended : vars.ended = false)
    (hq : q ∈ nextCells vars.playerAt) (hfree : q ∈ freeCells map) :
    ∃ key ∈ movementKeys, ∃ next, eventHandler key vars = .ok (true, next) ∧
      Walked map chars vars next ∧ next.playerAt = q := by
  have hadjacent := mem_nextCells.mp hq
  obtain ⟨d, hd, hwall⟩ := mem_freeCells.mp hfree
  obtain ⟨c, hc⟩ := (h.cells q).mpr ⟨d, hd⟩
  have hfree' : c ≠ '1' := by
    rintro rfl
    rw [(h.wall q).mp hc, Option.some.injEq] at hd
    exact hwall hd.symm
  obtain ⟨key, hkey, htarget⟩ := exists_key hadjacent
  obtain ⟨next, hrun, ⟨hblocked, -⟩ | ⟨-, -, hmoved⟩⟩ := event_cases h hadjacent htarget hc
  · rw [hended] at hblocked
    exact absurd (hblocked.resolve_left (by decide)) hfree'
  · refine ⟨key, hkey, next, hrun, ⟨h.moved hc hfree' hmoved, fun p hp => ?_⟩, hmoved.playerAt⟩
    rw [hmoved.cell p] at hp
    split_ifs at hp
    · exact absurd hp (by decide)
    · exact absurd hp (by decide)
    · exact absurd hp (by decide)
    · exact hp

theorem exists_walk {map : Map} {chars : MapChars} {vars : Vars} {q : Point}
    (h : Consistent map chars.exitAt vars)
    (hreach : Reaches nextCells (freeCells map) vars.playerAt q) :
    ∃ keys, (∀ key ∈ keys, key ∈ movementKeys) ∧ ∃ next, play keys vars = .ok next ∧
      Walked map chars vars next ∧ (next.ended = true ∨ next.playerAt = q) := by
  generalize hat : vars.playerAt = p at hreach
  induction hreach using Relation.ReflTransGen.head_induction_on generalizing vars with
  | refl => exact ⟨[], by simp, vars, rfl, ⟨h, fun _ => id⟩, Or.inr hat⟩
  | head hstep _ ih =>
      cases hended : vars.ended with
      | true => exact ⟨[], by simp, vars, rfl, ⟨h, fun _ => id⟩, Or.inl hended⟩
      | false =>
          obtain ⟨key, hkey, mid, hrun, hmid, hplayer⟩ :=
            exists_step h hended (hat ▸ hstep.1) hstep.2
          obtain ⟨keys, hkeys, next, hrest, hnext, hend⟩ := ih hmid.consistent hplayer
          refine ⟨key :: keys, List.forall_mem_cons.mpr ⟨hkey, hkeys⟩, next, ?_,
            ⟨hnext.consistent, fun p hp => hmid.left p (hnext.left p hp)⟩, hend⟩
          rw [play, List.foldlM_cons, hrun]
          exact hrest

/-- The cells where something is left to take. -/
def remaining (map : Map) (vars : Vars) : Finset Point :=
  (freeCells map).filter fun p => vars.map.cell p = some 'C'

theorem mem_remaining {map : Map} {exitAt : Point} {vars : Vars} {p : Point}
    (h : Consistent map exitAt vars) : p ∈ remaining map vars ↔ vars.map.cell p = some 'C' := by
  rw [remaining, Finset.mem_filter, mem_freeCells]
  exact and_iff_right_of_imp fun hp => ⟨'C', h.uncollected p hp, by decide⟩

private theorem play_append {keys rest : List Int} {vars mid next : Vars}
    (hkeys : play keys vars = .ok mid) (hrest : play rest mid = .ok next) :
    play (keys ++ rest) vars = .ok next := by
  rw [play] at hkeys
  rw [play, List.foldlM_append, hkeys]
  exact hrest

/-- Taking one after the other what is left, and then going to the exit. -/
theorem exists_win {map : Map} {chars : MapChars} (haccepted : Accepted map chars)
    (hsolvable : Solvable map chars) (vars : Vars) (h : Consistent map chars.exitAt vars)
    (hwalk : Walkable map chars vars.playerAt) :
    ∃ keys, (∀ key ∈ keys, key ∈ movementKeys) ∧
      ∃ next, play keys vars = .ok next ∧ next.ended = true := by
  have hreach : ∀ q, Walkable map chars q →
      Reaches nextCells (freeCells map) vars.playerAt q := fun q hq =>
    (reaches_symm (playerAt_free haccepted) hwalk).trans hq
  by_cases hnone : remaining map vars = ∅
  · obtain ⟨keys, hkeys, next, hrun, hnext, hend⟩ :=
      exists_walk h (hreach chars.exitAt (hsolvable _ (Or.inl ((haccepted.exit _).mpr rfl))))
    refine ⟨keys, hkeys, next, hrun, ?_⟩
    rcases hend with hended | hat
    · exact hended
    · refine hnext.consistent.ended.mpr ⟨hat, ?_⟩
      have hzero : next.map.count 'C' = 0 := by
        by_contra hpos
        obtain ⟨p, hp⟩ := Grid.count_pos_iff.mp (Nat.pos_of_ne_zero hpos)
        have hmem := (mem_remaining h).mpr (hnext.left p hp)
        rw [hnone] at hmem
        exact absurd hmem (Finset.notMem_empty p)
      rw [hnext.consistent.collectible, hzero]
      rfl
  · obtain ⟨p, hp⟩ := Finset.nonempty_iff_ne_empty.mpr hnone
    have hcell := (mem_remaining h).mp hp
    have hwalkp := hsolvable p (Or.inr (h.uncollected p hcell))
    obtain ⟨keys, hkeys, mid, hrun, hmid, hend⟩ := exists_walk h (hreach p hwalkp)
    rcases hend with hended | hat
    · exact ⟨keys, hkeys, mid, hrun, hended⟩
    · have hless : (remaining map mid).card < (remaining map vars).card := by
        refine Finset.card_lt_card (Finset.ssubset_iff_of_subset ?_ |>.mpr ⟨p, hp, ?_⟩)
        · intro q hq
          exact (mem_remaining h).mpr (hmid.left q ((mem_remaining hmid.consistent).mp hq))
        · intro hleft
          have hleft' := (mem_remaining hmid.consistent).mp hleft
          rw [(hmid.consistent.player p).mpr hat.symm] at hleft'
          exact absurd hleft' (by decide)
      obtain ⟨rest, hrest, next, hrun', hended⟩ :=
        exists_win haccepted hsolvable mid hmid.consistent (hat ▸ hwalkp)
      refine ⟨keys ++ rest, fun key hkey => ?_, next, play_append hrun hrun', hended⟩
      exact (List.mem_append.mp hkey).elim (hkeys key) (hrest key)
termination_by (remaining map vars).card

theorem solvable_iff_winnable {lines : List MapLine} {chars : MapChars}
    (haccepted : Accepted (fillArray lines) chars) :
    Solvable (fillArray lines) chars ↔ Winnable lines chars := by
  have hstart := consistent_start haccepted lines.length ((fillArray lines).headD []).length
  constructor
  · exact fun hsolvable => exists_win haccepted hsolvable _ hstart Relation.ReflTransGen.refl
  · rintro ⟨keys, hkeys, vars, hrun, hended⟩
    obtain ⟨vars', hrun', hvars⟩ := hstart.play haccepted hkeys
    obtain rfl : vars = vars' := by
      change play keys (startGame lines chars) = _ at hrun'
      rw [hrun] at hrun'
      exact Except.ok.inj hrun'
    exact solvable_of_ended haccepted hvars
      ((explored_start _ _).play haccepted hstart hkeys hrun) hended

end FortyTwo.SoLong
