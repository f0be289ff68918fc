import FortyTwo.SoLong.AcceptedMap
import FortyTwo.SoLong.Game

/-!
What a movement key does to the state of the game, and what holds of every state
that keys lead to.
-/

namespace FortyTwo.SoLong

open Foundation

def movementKeys : List Int := [119, 97, 115, 100]

namespace Vars

def playerAt (vars : Vars) : Point := vars.mapchars.playerAt

def collectible (vars : Vars) : Int := vars.mapchars.collectible

end Vars

/-- What holds of the state of a game on the map `original`. -/
structure Consistent (original : Map) (exitAt : Point) (vars : Vars) : Prop where
  exitAt_eq : vars.mapchars.exitAt = exitAt
  player : ∀ p, vars.map.cell p = some 'P' ↔ p = vars.playerAt
  exit : vars.playerAt ≠ exitAt → vars.map.cell exitAt = some 'E'
  only_exit : ∀ p, vars.map.cell p = some 'E' → p = exitAt
  collectible : vars.collectible = vars.map.count 'C'
  ended : vars.ended = true ↔ vars.playerAt = exitAt ∧ vars.collectible = 0
  cells : ∀ p, (∃ c, vars.map.cell p = some c) ↔ ∃ c, original.cell p = some c
  tile : ∀ p c, vars.map.cell p = some c → IsTile c
  wall : ∀ p, vars.map.cell p = some '1' ↔ original.cell p = some '1'
  uncollected : ∀ p, vars.map.cell p = some 'C' → original.cell p = some 'C'

theorem consistent_start {map : Map} {chars : MapChars} (h : Accepted map chars) (lenY lenX : Nat) :
    Consistent map chars.exitAt (game map chars lenY lenX) where
  exitAt_eq := rfl
  player := h.player
  exit _ := (h.exit _).mpr rfl
  only_exit p hp := (h.exit p).mp hp
  collectible := h.collectible
  ended := by
    have hpos := h.some_collectible
    constructor
    · intro hended
      cases hended
    · rintro ⟨-, hzero⟩
      change chars.collectible = 0 at hzero
      omega
  cells _ := Iff.rfl
  tile _ _ := h.tile
  wall _ := Iff.rfl
  uncollected _ := id

/-- The player has gone to the free cell `q`. -/
structure Moved (exitAt : Point) (vars next : Vars) (q : Point) : Prop where
  playerAt : next.playerAt = q
  exitAt_eq : next.mapchars.exitAt = exitAt
  cell : ∀ p, next.map.cell p =
    if p = q then some 'P' else if p = exitAt then some 'E'
    else if p = vars.playerAt then some '0' else vars.map.cell p
  count : next.map.count 'C' + (if vars.map.cell q = some 'C' then 1 else 0) =
    vars.map.count 'C'
  collectible : next.collectible + (if vars.map.cell q = some 'C' then 1 else 0) =
    vars.collectible
  ended : next.ended = true ↔ q = exitAt ∧ next.collectible = 0

/-- `key` is one that moves from the player's cell to `q`. -/
def Targets (vars : Vars) (key : Int) (q : Point) : Prop :=
  ∃ changed, (changed = q.x ∨ changed = q.y) ∧
    eventHandler key vars = do return (true, ← restoreExit (← move vars q.x q.y changed))

theorem exists_target {key : Int} (h : key ∈ movementKeys) (vars : Vars) :
    ∃ q, vars.playerAt.Adjacent q ∧ Targets vars key q := by
  simp only [movementKeys, List.mem_cons, List.not_mem_nil, or_false] at h
  rcases h with rfl | rfl | rfl | rfl
  · exact ⟨vars.playerAt.up, by simp [Point.Adjacent], _, Or.inr rfl, rfl⟩
  · exact ⟨vars.playerAt.left, by simp [Point.Adjacent], _, Or.inl rfl, rfl⟩
  · exact ⟨vars.playerAt.down, by simp [Point.Adjacent], _, Or.inr rfl, rfl⟩
  · exact ⟨vars.playerAt.right, by simp [Point.Adjacent], _, Or.inl rfl, rfl⟩

theorem exists_key {vars : Vars} {q : Point} (h : vars.playerAt.Adjacent q) :
    ∃ key ∈ movementKeys, Targets vars key q := by
  rcases h with rfl | rfl | rfl | rfl
  · exact ⟨97, by simp [movementKeys], _, Or.inl rfl, rfl⟩
  · exact ⟨100, by simp [movementKeys], _, Or.inl rfl, rfl⟩
  · exact ⟨119, by simp [movementKeys], _, Or.inr rfl, rfl⟩
  · exact ⟨115, by simp [movementKeys], _, Or.inr rfl, rfl⟩

theorem cellAt_eq {vars : Vars} {p : Point} {c : Char} (h : vars.map.cell p = some c) :
    vars.cellAt p.x p.y = .ok c := by
  obtain ⟨row, hrow, hc⟩ := reads_cell h
  rw [Vars.cellAt, hrow]
  exact hc

theorem setCell_eq {vars : Vars} {p : Point} {old : Char} (h : vars.map.cell p = some old)
    (c : Char) : vars.setCell p.x p.y c = .ok { vars with map := vars.map.write p c } := by
  rw [Vars.setCell]
  simp only [h]

/-- `can_move` to a cell that is free. -/
private def entered (vars : Vars) (q : Point) (c : Char) : Vars where
  map := vars.map.write q 'P'
  lenX := vars.lenX
  lenY := vars.lenY
  ended := decide (c = 'E' ∧ vars.collectible = 0)
  mapchars := { vars.mapchars with
    collectible := vars.mapchars.collectible - if c = 'C' then 1 else 0 }

private theorem canMove_free {vars : Vars} {q : Point} {c : Char} (hended : vars.ended = false)
    (hc : vars.map.cell q = some c) (hfree : c = 'C' ∨ c = 'E' ∨ c = '0') :
    canMove vars q.x q.y = .ok (true, entered vars q c) := by
  have hread := cellAt_eq hc
  have hset : vars.map.cell ⟨q.x, q.y⟩ = some c := hc
  rcases hfree with rfl | rfl | rfl
  · simp [canMove, hended, hread, Vars.setCell, hset, entered, bind, Except.bind, pure,
      Except.pure]
  · by_cases hzero : vars.mapchars.collectible = 0
    · simp [canMove, hended, hread, hzero, Vars.setCell, hset, entered, Vars.collectible, bind,
        Except.bind, pure, Except.pure]
      exact congrArg (fun n => { vars.mapchars with collectible := n }) hzero
    · simp [canMove, hended, hread, hzero, Vars.setCell, hset, entered, Vars.collectible, bind,
        Except.bind, pure, Except.pure]
  · simp [canMove, hended, hread, Vars.setCell, hset, entered, bind, Except.bind, pure,
      Except.pure]

private theorem canMove_blocked {vars : Vars} {q : Point} {c : Char}
    (hc : vars.map.cell q = some c)
    (hblocked : vars.ended = true ∨ ¬ (c = 'C' ∨ c = 'E' ∨ c = '0')) :
    canMove vars q.x q.y = .ok (false, vars) := by
  cases hended : vars.ended with
  | true => simp [canMove, hended, pure, Except.pure]
  | false =>
      rw [hended] at hblocked
      simp only [Bool.false_eq_true, false_or, not_or] at hblocked
      simp [canMove, hended, cellAt_eq hc, hblocked, bind, Except.bind, pure, Except.pure]

private def restored (exitAt : Point) (vars : Vars) : Vars :=
  { vars with map := if vars.playerAt = exitAt then vars.map else vars.map.write exitAt 'E' }

private theorem restoreExit_of_exit {vars : Vars} {exitAt : Point}
    (hexitAt : vars.mapchars.exitAt = exitAt) {old : Char}
    (hold : vars.map.cell exitAt = some old) :
    restoreExit vars = .ok (restored exitAt vars) := by
  subst hexitAt
  have hcond : (vars.mapchars.playerX ≠ vars.mapchars.exitX ∨
      vars.mapchars.playerY ≠ vars.mapchars.exitY) ↔ ¬ vars.playerAt = vars.mapchars.exitAt := by
    simp only [Vars.playerAt, MapChars.playerAt, MapChars.exitAt, Point.mk.injEq]
    tauto
  rw [restoreExit, restored]
  by_cases hat : vars.playerAt = vars.mapchars.exitAt
  · rw [if_neg (fun h => hcond.mp h hat)]
    simp only [if_pos hat]
  · rw [if_pos (hcond.mpr hat)]
    simp only [if_neg hat]
    exact setCell_eq hold 'E'

/-- A move function that takes the player to the free cell `q`. -/
private def arrived (vars : Vars) (q : Point) (c : Char) : Vars where
  map := (vars.map.write q 'P').write vars.playerAt '0'
  lenX := vars.lenX
  lenY := vars.lenY
  ended := decide (c = 'E' ∧ vars.collectible = 0)
  mapchars := { vars.mapchars with
    collectible := vars.mapchars.collectible - if c = 'C' then 1 else 0
    playerX := q.x
    playerY := q.y
    movements := vars.mapchars.movements + 1 }

private theorem move_free {vars : Vars} {q : Point} {c : Char} {changed : Int}
    (hchanged : ¬ changed < 0) (hended : vars.ended = false) (hc : vars.map.cell q = some c)
    (hfree : c = 'C' ∨ c = 'E' ∨ c = '0') (hplayer : vars.map.cell vars.playerAt = some 'P')
    (hne : q ≠ vars.playerAt) : move vars q.x q.y changed = .ok (arrived vars q c) := by
  have hold : (entered vars q c).map.cell vars.playerAt = some 'P' := by
    rw [← hplayer]
    exact Grid.cell_write_of_ne hc 'P' hne.symm
  have hset := setCell_eq hold '0'
  rw [move, if_neg hchanged, canMove_free hended hc hfree]
  change (do
    let next ← (entered vars q c).setCell vars.playerAt.x vars.playerAt.y '0'
    pure { next with mapchars := _ } : Except Stop Vars) = _
  rw [hset]
  rfl

private theorem arrived_cell {vars : Vars} {q : Point} {c : Char}
    (hc : vars.map.cell q = some c) (hplayer : vars.map.cell vars.playerAt = some 'P')
    (hne : q ≠ vars.playerAt) (p : Point) :
    (arrived vars q c).map.cell p =
      if p = vars.playerAt then some '0' else if p = q then some 'P' else vars.map.cell p := by
  have hold : (vars.map.write q 'P').cell vars.playerAt = some 'P' := by
    rw [Grid.cell_write_of_ne hc 'P' hne.symm]
    exact hplayer
  rw [arrived, Grid.cell_write hold, Grid.cell_write hc]

private theorem arrived_count {vars : Vars} {q : Point} {c : Char}
    (hc : vars.map.cell q = some c) (hplayer : vars.map.cell vars.playerAt = some 'P')
    (hne : q ≠ vars.playerAt) :
    (arrived vars q c).map.count 'C' + (if c = 'C' then 1 else 0) = vars.map.count 'C' := by
  have hold : (vars.map.write q 'P').cell vars.playerAt = some 'P' := by
    rw [Grid.cell_write_of_ne hc 'P' hne.symm]
    exact hplayer
  have henter := Grid.count_write hc 'C' 'P'
  have hleave := Grid.count_write hold 'C' '0'
  rw [if_neg (by decide : ¬ 'P' = 'C')] at henter hleave
  rw [if_neg (by decide : ¬ '0' = 'C')] at hleave
  rw [arrived]
  dsimp only
  omega

private theorem move_blocked {vars : Vars} {q : Point} {c : Char} {changed : Int}
    (hc : vars.map.cell q = some c)
    (hblocked : vars.ended = true ∨ ¬ (c = 'C' ∨ c = 'E' ∨ c = '0')) :
    move vars q.x q.y changed = .ok vars := by
  rw [move]
  split
  · rfl
  · rw [canMove_blocked hc hblocked]
    rfl

private theorem arrived_exit {original : Map} {exitAt q : Point} {vars : Vars} {c : Char}
    (h : Consistent original exitAt vars) (hc : vars.map.cell q = some c)
    (hne : q ≠ vars.playerAt) :
    ∃ there, (arrived vars q c).map.cell exitAt = some there ∧ there ≠ 'C' := by
  rw [arrived_cell hc ((h.player _).mpr rfl) hne]
  by_cases haway : exitAt = vars.playerAt
  · exact ⟨'0', if_pos haway, by decide⟩
  · rw [if_neg haway]
    by_cases hthere : exitAt = q
    · exact ⟨'P', if_pos hthere, by decide⟩
    · rw [if_neg hthere]
      exact ⟨'E', h.exit fun heq => haway heq.symm, by decide⟩

private theorem moved_of_arrived {original : Map} {exitAt q : Point} {vars : Vars} {c : Char}
    (h : Consistent original exitAt vars) (hc : vars.map.cell q = some c)
    (hne : q ≠ vars.playerAt) : Moved exitAt vars (restored exitAt (arrived vars q c)) q := by
  have hhere : vars.map.cell vars.playerAt = some 'P' := (h.player _).mpr rfl
  have hcell := arrived_cell hc hhere hne
  have hcount := arrived_count hc hhere hne
  obtain ⟨there, hthere, hnotC⟩ := arrived_exit h hc hne
  have hat : (arrived vars q c).playerAt = q := rfl
  refine ⟨rfl, h.exitAt_eq, fun p => ?_, ?_, ?_, ?_⟩
  · by_cases hqe : q = exitAt
    · simp only [restored, hat, if_pos hqe]
      rw [hcell]
      by_cases hpq : p = q
      · rw [if_pos hpq, if_pos hpq, if_neg (hpq ▸ hne)]
      · rw [if_neg hpq, if_neg hpq,
          if_neg fun hpe : p = exitAt => hpq (hpe.trans hqe.symm)]
    · simp only [restored, hat, if_neg hqe]
      rw [Grid.cell_write hthere, hcell]
      by_cases hpq : p = q
      · rw [if_pos hpq, if_neg (hpq ▸ hqe), if_neg (hpq ▸ hne), if_pos hpq]
      · rw [if_neg hpq, if_neg hpq]
  · rw [hc]
    simp only [Option.some.injEq]
    rw [← hcount, restored]
    by_cases hqe : q = exitAt
    · simp only [hat, if_pos hqe]
    · have hwrite := Grid.count_write hthere 'C' 'E'
      rw [if_neg hnotC, if_neg (by decide : ¬ 'E' = 'C')] at hwrite
      simp only [hat, if_neg hqe]
      omega
  · rw [hc]
    simp only [Option.some.injEq]
    change vars.collectible - (if c = 'C' then 1 else 0) + (if c = 'C' then 1 else 0) = _
    omega
  · simp only [restored, arrived, decide_eq_true_eq]
    change _ ↔ q = exitAt ∧ vars.collectible - (if c = 'C' then 1 else 0) = 0
    constructor
    · rintro ⟨rfl, hzero⟩
      refine ⟨h.only_exit q hc, ?_⟩
      rw [if_neg (by decide), hzero, sub_zero]
    · rintro ⟨rfl, hzero⟩
      have hE := h.exit hne.symm
      rw [hc, Option.some.injEq] at hE
      subst hE
      rw [if_neg (by decide), sub_zero] at hzero
      exact ⟨rfl, hzero⟩

/-- What a movement key does: nothing when the game is over or a wall is in the way,
else it takes the player to the next cell. -/
theorem event_cases {original : Map} {exitAt : Point} {vars : Vars} {key : Int} {q : Point}
    {c : Char} (h : Consistent original exitAt vars) (hq : vars.playerAt.Adjacent q)
    (hkey : Targets vars key q) (hc : vars.map.cell q = some c) :
    ∃ next, eventHandler key vars = .ok (true, next) ∧
      (((vars.ended = true ∨ c = '1') ∧ next = vars) ∨
        (vars.ended = false ∧ c ≠ '1' ∧ Moved exitAt vars next q)) := by
  obtain ⟨changed, hchanged, hrun⟩ := hkey
  have hqx : 0 ≤ q.x ∧ 0 ≤ q.y := by
    obtain ⟨hx, hy, -⟩ := Grid.cell_eq_some_iff.mp hc
    exact ⟨hx, hy⟩
  have hnonneg : ¬ changed < 0 := by omega
  have hne : q ≠ vars.playerAt := Point.Adjacent.ne hq
  have hplayer : c ≠ 'P' := by
    rintro rfl
    exact hne ((h.player q).mp hc)
  have hhere : vars.map.cell vars.playerAt = some 'P' := (h.player _).mpr rfl
  obtain ⟨old, hold⟩ : ∃ d, vars.map.cell exitAt = some d := by
    by_cases haway : vars.playerAt = exitAt
    · exact ⟨'P', haway ▸ hhere⟩
    · exact ⟨'E', h.exit haway⟩
  by_cases hfree : vars.ended = false ∧ c ≠ '1'
  · have htile : c = 'C' ∨ c = 'E' ∨ c = '0' := by
      have hcases := h.tile q c hc
      unfold IsTile at hcases
      tauto
    have hmove := move_free hnonneg hfree.1 hc htile hhere hne
    refine ⟨_, ?_, Or.inr ⟨hfree.1, hfree.2, moved_of_arrived h hc hne⟩⟩
    obtain ⟨there, hthere, -⟩ := arrived_exit h hc hne
    rw [hrun, hmove]
    change (do return (true, ← restoreExit (arrived vars q c))) = _
    rw [@restoreExit_of_exit (arrived vars q c) exitAt h.exitAt_eq there hthere]
    rfl
  · have hblocked : vars.ended = true ∨ ¬ (c = 'C' ∨ c = 'E' ∨ c = '0') := by
      rw [not_and_or, not_not, Bool.not_eq_false] at hfree
      apply hfree.imp_right
      intro hwall
      subst hwall
      decide
    refine ⟨vars, ?_, Or.inl ⟨?_, rfl⟩⟩
    · rw [hrun, move_blocked hc hblocked]
      change (do return (true, ← restoreExit vars)) = _
      have hsame : restored exitAt vars = vars := by
        rw [restored]
        split
        · rfl
        · next haway => rw [Grid.write_eq_self (h.exit haway)]
      rw [restoreExit_of_exit h.exitAt_eq hold, hsame]
      rfl
    · rw [not_and_or, not_not, Bool.not_eq_false] at hfree
      exact hfree

theorem Consistent.exit_cell {original : Map} {exitAt : Point} {vars : Vars}
    (h : Consistent original exitAt vars) :
    vars.map.cell exitAt = some 'E' ∨ vars.map.cell exitAt = some 'P' := by
  by_cases haway : vars.playerAt = exitAt
  · exact Or.inr ((h.player _).mpr haway.symm)
  · exact Or.inl (h.exit haway)

/-- A cell that the move changes held no wall, and now holds a player, an exit or
empty space. -/
private theorem Consistent.changed {original : Map} {exitAt q : Point} {vars next : Vars}
    {c : Char} (h : Consistent original exitAt vars) (hc : vars.map.cell q = some c)
    (hwall : c ≠ '1') (hmoved : Moved exitAt vars next q) (p : Point) :
    next.map.cell p = vars.map.cell p ∨ ∃ before after, vars.map.cell p = some before ∧
      next.map.cell p = some after ∧ before ≠ '1' ∧ after ≠ '1' ∧ after ≠ 'C' ∧ IsTile after := by
  have hplayer := (h.player vars.playerAt).mpr rfl
  rw [hmoved.cell p]
  split_ifs with hq hexit hleft
  · exact Or.inr ⟨c, 'P', hq ▸ hc, rfl, hwall, by simp [IsTile]⟩
  · rcases h.exit_cell with hcell | hcell
    · exact Or.inr ⟨'E', 'E', hexit ▸ hcell, rfl, by simp [IsTile]⟩
    · exact Or.inr ⟨'P', 'E', hexit ▸ hcell, rfl, by simp [IsTile]⟩
  · exact Or.inr ⟨'P', '0', hleft ▸ hplayer, rfl, by simp [IsTile]⟩
  · exact Or.inl rfl

theorem Consistent.moved {original : Map} {exitAt q : Point} {vars next : Vars} {c : Char}
    (h : Consistent original exitAt vars) (hc : vars.map.cell q = some c) (hwall : c ≠ '1')
    (hmoved : Moved exitAt vars next q) : Consistent original exitAt next := by
  have hchanged := h.changed hc hwall hmoved
  refine ⟨hmoved.exitAt_eq, fun p => ?_, fun haway => ?_, fun p hp => ?_, ?_, ?_, fun p => ?_,
    fun p d hd => ?_, fun p => ?_, fun p hp => ?_⟩
  · rw [hmoved.playerAt, hmoved.cell p]
    split_ifs with hq hexit hleft
    · exact ⟨fun _ => hq, fun _ => rfl⟩
    · exact ⟨fun hp => absurd hp (by decide), fun hp => absurd hp hq⟩
    · exact ⟨fun hp => absurd hp (by decide), fun hp => absurd hp hq⟩
    · exact ⟨fun hp => absurd ((h.player p).mp hp) hleft, fun hp => absurd hp hq⟩
  · rw [hmoved.playerAt] at haway
    rw [hmoved.cell, if_neg haway.symm, if_pos rfl]
  · rw [hmoved.cell p] at hp
    split_ifs at hp with hq hexit hleft
    · exact absurd hp (by decide)
    · exact hexit
    · exact absurd hp (by decide)
    · exact h.only_exit p hp
  · have hcount := hmoved.count
    have hcollectible := hmoved.collectible
    have hold := h.collectible
    split_ifs at hcount hcollectible
    · omega
    · omega
  · rw [hmoved.playerAt]
    exact hmoved.ended
  · rw [← h.cells p]
    rcases hchanged p with hsame | ⟨before, after, hbefore, hafter, -⟩
    · rw [hsame]
    · simp [hbefore, hafter]
  · rcases hchanged p with hsame | ⟨before, after, -, hafter, -, -, -, htile⟩
    · exact h.tile p d (hsame ▸ hd)
    · rw [hafter, Option.some.injEq] at hd
      exact hd ▸ htile
  · rw [← h.wall p]
    rcases hchanged p with hsame | ⟨before, after, hbefore, hafter, hne, hne', -⟩
    · rw [hsame]
    · simp [hbefore, hafter, hne, hne']
  · rcases hchanged p with hsame | ⟨before, after, -, hafter, -, -, hne, -⟩
    · exact h.uncollected p (hsame ▸ hp)
    · rw [hafter, Option.some.injEq] at hp
      exact absurd hp hne

/-- The player stands on no wall of the map. -/
theorem Consistent.standing {original : Map} {exitAt : Point} {vars : Vars}
    (h : Consistent original exitAt vars) :
    ∃ c, original.cell vars.playerAt = some c ∧ c ≠ '1' := by
  have hplayer := (h.player vars.playerAt).mpr rfl
  obtain ⟨c, hc⟩ := (h.cells vars.playerAt).mp ⟨_, hplayer⟩
  refine ⟨c, hc, ?_⟩
  rintro rfl
  rw [(h.wall _).mpr hc] at hplayer
  exact absurd hplayer (by decide)

theorem Consistent.neighbour {map : Map} {chars : MapChars} {vars : Vars} {q : Point}
    (haccepted : Accepted map chars) (h : Consistent map chars.exitAt vars)
    (hq : vars.playerAt.Adjacent q) : ∃ c, vars.map.cell q = some c := by
  obtain ⟨c, hc, hwall⟩ := h.standing
  exact (h.cells q).mpr (haccepted.enclosed hc hwall hq)

theorem Consistent.event {map : Map} {chars : MapChars} {vars : Vars} {key : Int}
    (haccepted : Accepted map chars) (h : Consistent map chars.exitAt vars)
    (hkey : key ∈ movementKeys) :
    ∃ next, eventHandler key vars = .ok (true, next) ∧ Consistent map chars.exitAt next := by
  obtain ⟨q, hq, htarget⟩ := exists_target hkey vars
  obtain ⟨c, hc⟩ := h.neighbour haccepted hq
  obtain ⟨next, hrun, ⟨-, rfl⟩ | ⟨-, hwall, hmoved⟩⟩ := event_cases h hq htarget hc
  · exact ⟨next, hrun, h⟩
  · exact ⟨next, hrun, h.moved hc hwall hmoved⟩

theorem Consistent.play {map : Map} {chars : MapChars} {vars : Vars} {keys : List Int}
    (haccepted : Accepted map chars) (h : Consistent map chars.exitAt vars)
    (hkeys : ∀ key ∈ keys, key ∈ movementKeys) :
    ∃ next, play keys vars = .ok next ∧ Consistent map chars.exitAt next := by
  induction keys generalizing vars with
  | nil => exact ⟨vars, rfl, h⟩
  | cons key rest ih =>
      obtain ⟨mid, hrun, hmid⟩ := h.event haccepted (hkeys key List.mem_cons_self)
      obtain ⟨next, hrest, hnext⟩ := ih hmid fun k hk => hkeys k (List.mem_cons_of_mem _ hk)
      refine ⟨next, ?_, hnext⟩
      rw [SoLong.play, List.foldlM_cons, hrun]
      exact hrest

theorem checkMap_ok_inv {fuel : Nat} {lines trimmed : List MapLine} {chars counted : MapChars}
    {len : Nat} (h : checkMap fuel lines chars = .ok (len, trimmed, counted)) :
    Accepted (fillArray trimmed) counted := by
  unfold checkMap at h
  dsimp only at h
  split at h
  · next hchecks =>
      cases hfill : floodFill fuel (mapIsValid (mapIsRectangular lines).2 chars).2.playerX
          (mapIsValid (mapIsRectangular lines).2 chars).2.playerY
          (fillArray (mapIsRectangular lines).2) with
      | error stop =>
          rw [hfill] at h
          cases h
      | ok filled =>
          rw [hfill] at h
          change (if _ then _ else _) = _ at h
          split at h
          · cases h
          · cases h
            exact accepted_of_checks hchecks.2.1 hchecks.2.2
  · cases h

/-- The state of a game on the map `original`, as far as its cells show it. -/
structure GameInvariants (original : Map) (vars : Vars) : Prop where
  one_player : ∀ p, vars.map.cell p = some 'P' ↔
    p = ⟨vars.mapchars.playerX, vars.mapchars.playerY⟩
  not_on_wall : ∃ c, original.cell ⟨vars.mapchars.playerX, vars.mapchars.playerY⟩ = some c ∧
    c ≠ '1'
  walls : ∀ p, vars.map.cell p = some '1' ↔ original.cell p = some '1'
  collectible : vars.mapchars.collectible = vars.map.count 'C'
  exit_shown : ∀ p, original.cell p = some 'E' →
    p ≠ ⟨vars.mapchars.playerX, vars.mapchars.playerY⟩ → vars.map.cell p = some 'E'
  ended : vars.ended = true ↔
    original.cell ⟨vars.mapchars.playerX, vars.mapchars.playerY⟩ = some 'E' ∧
      vars.map.count 'C' = 0

def corridor : List MapLine :=
  ["11111\n", "1PCE1\n", "11111"].map fun row => { data := row.toList }

private theorem corridor_accepted : checkMap 20 corridor {} =
    .ok (3, (mapIsRectangular corridor).2, (mapIsValid (mapIsRectangular corridor).2 {}).2) := by
  decide +kernel

end FortyTwo.SoLong
