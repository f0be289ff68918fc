import FortyTwo.Cub3d.Closure
import FortyTwo.Foundation.BoundedLoop

/-!
The loop of `dda` in `raycast.c`, from cell to cell. Which side distance is the
smaller in a round is given from outside; the loop has no other way to see them.
-/

namespace FortyTwo.Cub3d

open Foundation

/-- `t_ray`, as far as the loop of `dda` reads and writes it. -/
structure Ray where
  mapX : Int
  mapY : Int
  stepX : Int
  stepY : Int
  side : Int := 0
  deriving DecidableEq, Repr

structure DdaState where
  ray : Ray
  hit : Bool := false
  round : Nat := 0
  deriving DecidableEq, Repr

def stepAlong (closerX : Bool) (ray : Ray) : Ray :=
  if closerX then { ray with mapX := ray.mapX + ray.stepX, side := 0 }
  else { ray with mapY := ray.mapY + ray.stepY, side := 1 }

/-- A round of the loop: `closerX` tells whether `side_dist_x < side_dist_y` in it. -/
def ddaRound (closerX : Nat → Bool) (map : Map) (s : DdaState) : Except Stop DdaState := do
  let ray := stepAlong (closerX s.round) s.ray
  let c ← readCell map ⟨ray.mapX, ray.mapY⟩
  return { ray, hit := decide ('0' < c), round := s.round + 1 }

def dda (fuel : Nat) (closerX : Nat → Bool) (map : Map) (ray : Ray) : Except Stop DdaState :=
  boundedWhile .outOfFuel (fun s => !s.hit) (ddaRound closerX map) fuel { ray }

def Ray.cell (ray : Ray) : Point := ⟨ray.mapX, ray.mapY⟩

/-- How far a coordinate can still go in its direction, within `bound`. -/
private def toGo (step x : Int) (bound : Nat) : Int := if step = 1 then bound - x else x + 1

/-- The ray is on the floor until it hits a wall, and keeps its direction. -/
private structure OnItsWay (parse : Parse) (stepX stepY : Int) (s : DdaState) : Prop where
  steps : s.ray.stepX = stepX ∧ s.ray.stepY = stepY
  cell : parse.map.cell s.ray.cell = some (if s.hit then '1' else '0')

private def variant (w h : Nat) (s : DdaState) : Nat :=
  if s.hit then 0 else (toGo s.ray.stepX s.ray.mapX w + toGo s.ray.stepY s.ray.mapY h).toNat

private theorem toGo_step {step x : Int} {bound : Nat} (h : step = 1 ∨ step = -1) :
    toGo step (x + step) bound = toGo step x bound - 1 := by
  rcases h with rfl | rfl
  · rw [toGo, toGo, if_pos rfl, if_pos rfl]
    ring
  · rw [toGo, toGo, if_neg (by decide), if_neg (by decide)]
    ring

private theorem toGo_pos {step x : Int} {bound : Nat} (hx : 0 ≤ x) (hlt : x < bound) :
    0 < toGo step x bound := by
  unfold toGo
  split <;> omega

/-- A step leads to a neighbour and one cell nearer to the side of the map. -/
private theorem stepAlong_spec (closerX : Bool) {ray : Ray} (w h : Nat)
    (hstepX : ray.stepX = 1 ∨ ray.stepX = -1) (hstepY : ray.stepY = 1 ∨ ray.stepY = -1) :
    ray.cell.Adjacent (stepAlong closerX ray).cell ∧
      toGo ray.stepX (stepAlong closerX ray).mapX w + toGo ray.stepY (stepAlong closerX ray).mapY h =
        toGo ray.stepX ray.mapX w + toGo ray.stepY ray.mapY h - 1 := by
  cases closerX with
  | true =>
      constructor
      · rcases hstepX with hstep | hstep
        · exact Or.inr (Or.inl (by simp [Ray.cell, stepAlong, Point.right, hstep]))
        · exact Or.inl (by simp [Ray.cell, stepAlong, Point.left, hstep, sub_eq_add_neg])
      · change toGo ray.stepX (ray.mapX + ray.stepX) w + toGo ray.stepY ray.mapY h = _
        rw [toGo_step hstepX]
        ring
  | false =>
      constructor
      · rcases hstepY with hstep | hstep
        · exact Or.inr (Or.inr (Or.inr (by simp [Ray.cell, stepAlong, Point.down, hstep])))
        · exact Or.inr (Or.inr (Or.inl (by
            simp [Ray.cell, stepAlong, Point.up, hstep, sub_eq_add_neg])))
      · change toGo ray.stepX ray.mapX w + toGo ray.stepY (ray.mapY + ray.stepY) h = _
        rw [toGo_step hstepY]
        ring

private theorem stepAlong_steps (closerX : Bool) (ray : Ray) :
    (stepAlong closerX ray).stepX = ray.stepX ∧ (stepAlong closerX ray).stepY = ray.stepY := by
  cases closerX <;> exact ⟨rfl, rfl⟩

private theorem ddaRound_eq {closerX : Nat → Bool} {map : Map} {s : DdaState} {c : Char}
    (hc : map.cell (stepAlong (closerX s.round) s.ray).cell = some c) :
    ddaRound closerX map s =
      .ok ⟨stepAlong (closerX s.round) s.ray, decide ('0' < c), s.round + 1⟩ := by
  have hread : readCell map ⟨(stepAlong (closerX s.round) s.ray).mapX,
    (stepAlong (closerX s.round) s.ray).mapY⟩ = .ok c := readCell_eq hc
  rw [ddaRound]
  simp only [hread]
  rfl

private theorem ddaRound_onItsWay {parse : Parse} (hparse : Playable parse) {w h : Nat}
    (hbounds : ∀ p a, parse.map.cell p = some a → 0 ≤ p.x ∧ p.x < w ∧ 0 ≤ p.y ∧ p.y < h)
    {stepX stepY : Int} (hstepX : stepX = 1 ∨ stepX = -1) (hstepY : stepY = 1 ∨ stepY = -1)
    (closerX : Nat → Bool) {s : DdaState} (hs : OnItsWay parse stepX stepY s)
    (hgo : s.hit = false) :
    ∃ next, ddaRound closerX parse.map s = .ok next ∧ OnItsWay parse stepX stepY next ∧
      variant w h next < variant w h s := by
  obtain ⟨⟨rfl, rfl⟩, hcell⟩ := hs
  rw [hgo] at hcell
  have hhere := hbounds _ _ hcell
  obtain ⟨hadjacent, hless⟩ := stepAlong_spec (closerX s.round) w h hstepX hstepY
  have hsteps := stepAlong_steps (closerX s.round) s.ray
  have hpos : 0 < toGo s.ray.stepX s.ray.mapX w + toGo s.ray.stepY s.ray.mapY h :=
    add_pos (toGo_pos hhere.1 hhere.2.1) (toGo_pos hhere.2.2.1 hhere.2.2.2)
  rcases hparse.neighbour hcell hadjacent with hfloor | hwall
  · refine ⟨_, ddaRound_eq hfloor, ⟨hsteps, hfloor⟩, ?_⟩
    have hfloor' : decide ('0' < '0') = false := by decide
    simp only [variant, hgo, hfloor', hsteps]
    simp only [Bool.false_eq_true, if_false]
    omega
  · refine ⟨_, ddaRound_eq hwall, ⟨hsteps, hwall⟩, ?_⟩
    have hwall' : decide ('0' < '1') = true := by decide
    simp only [variant, hgo, hwall', if_true, Bool.false_eq_true, if_false]
    omega

/-- On an accepted map a ray that starts on the floor comes to a wall, whichever
axis it takes in each round, and reads no cell that is not there. -/
theorem dda_hits_wall {fuel : Nat} {map : Map} {parse : Parse}
    (hcheck : checkMap fuel map = .ok parse) (closerX : Nat → Bool) {ray : Ray}
    (hstart : parse.map.cell ⟨ray.mapX, ray.mapY⟩ = some '0')
    (hstepX : ray.stepX = 1 ∨ ray.stepX = -1) (hstepY : ray.stepY = 1 ∨ ray.stepY = -1) :
    ∃ enough, ∀ rounds, enough ≤ rounds → ∃ final, dda rounds closerX parse.map ray = .ok final ∧
      parse.map.cell ⟨final.ray.mapX, final.ray.mapY⟩ = some '1' := by
  have hparse := playable_of_checkMap hcheck
  obtain ⟨w, h, hbounds⟩ := parse.map.exists_bounds
  refine ⟨variant w h { ray }, ?_⟩
  intro rounds hrounds
  obtain ⟨final, hrun, hfinal, hhit⟩ := boundedWhile_total Stop.outOfFuel (fun s => !s.hit)
    (ddaRound closerX parse.map) (OnItsWay parse ray.stepX ray.stepY) (variant w h)
    (fun s hs hgo => ddaRound_onItsWay hparse hbounds hstepX hstepY closerX hs (by simpa using hgo))
    rounds { ray } ⟨⟨rfl, rfl⟩, hstart⟩ hrounds
  refine ⟨final, hrun, ?_⟩
  have hcell := hfinal.cell
  rw [show final.hit = true by simpa using hhit] at hcell
  exact hcell

theorem dda_hits_wall_ragged :
    ∃ enough, ∀ rounds, enough ≤ rounds →
      ∃ final, dda rounds (fun n => n % 2 == 0) (findPlayer { map := ragged }).map
        ⟨1, 1, 1, 1, 0⟩ = .ok final ∧
        (findPlayer { map := ragged }).map.cell ⟨final.ray.mapX, final.ray.mapY⟩ = some '1' :=
  dda_hits_wall checkMap_ragged _ (by decide +kernel) (Or.inl rfl) (Or.inl rfl)

end FortyTwo.Cub3d
