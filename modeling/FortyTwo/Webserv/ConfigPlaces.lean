import FortyTwo.Foundation.Tracking
import FortyTwo.Webserv.ConfigLayout
import FortyTwo.Webserv.ConfigTotality

/-!
The places of a configuration file where a directive can stand, and that a directive
put there does not change whether the rest is accepted: the root of a block, the path
of a location and the locations of a server are stored and read by nothing.
-/

namespace FortyTwo.Webserv

open Foundation TokenParser ConfigParser
open ConfigTokens (Writes AnyType Progress Scanned)

section Unread

variable {root root' : Bytes} {front front' : List Location}

/-- Two blocks that differ in the root, `root` in the one and `root'` in the other, until
one of their directives sets it. -/
def CommonAlike (root root' : Bytes) (x y : CommonConfig) : Prop :=
  y = x ∨ x.root = root ∧ y = { x with root := root' }

def LocationAlike (root root' : Bytes) (x y : Location) : Prop :=
  ∃ common, y = { x with common := common } ∧ CommonAlike root root' x.common common

/-- Two servers that also differ in their locations up to here. -/
def ConfigAlike (root root' : Bytes) (front front' : List Location) (x y : Config) : Prop :=
  ∃ common rest, x.location = front ++ rest ∧
    y = { x with common := common, location := front' ++ rest } ∧
    CommonAlike root root' x.common common

theorem CommonAlike.eq {x y : CommonConfig} (h : CommonAlike root root x y) : y = x := by
  rcases h with rfl | ⟨rfl, rfl⟩
  · rfl
  · rfl

theorem commonDirective_tracks {x y : CommonConfig} (h : CommonAlike root root' x y) :
    Tracks (Option.Rel (CommonAlike root root')) (commonDirective x) (commonDirective y) := by
  rcases h with rfl | ⟨hroot, rfl⟩
  · apply Tracks.mono (Tracks.refl _)
    rintro (_ | _) _ rfl
    · exact .none
    · exact .some (Or.inl rfl)
  refine Tracks.bind_bool _ ?_ (Tracks.bind_bool _ ?_ (Tracks.bind_bool _ ?_
    (Tracks.bind_bool _ ?_ (Tracks.bind_bool _ ?_ (Tracks.bind_bool _ ?_
    (Tracks.bind_bool _ ?_ (Tracks.bind_bool _ ?_ (Tracks.pure .none))))))))
  · exact Tracks.bind_same _ fun path => Tracks.pure (.some (Or.inl rfl))
  · exact Tracks.bind_same _ fun names => Tracks.pure (.some (Or.inr ⟨hroot, rfl⟩))
  · exact Tracks.bind_same _ fun methods => Tracks.pure (.some (Or.inr ⟨hroot, rfl⟩))
  · exact Tracks.bind_same _ fun autoIndex => Tracks.pure (.some (Or.inr ⟨hroot, rfl⟩))
  · exact Tracks.bind_same _ fun pages => Tracks.pure (.some (Or.inr ⟨hroot, rfl⟩))
  · exact Tracks.bind_same _ fun x => Tracks.pure (.some (Or.inr ⟨hroot, rfl⟩))
  · exact Tracks.bind_same _ fun x => Tracks.pure (.some (Or.inr ⟨hroot, rfl⟩))
  · exact Tracks.bind_same _ fun size => Tracks.pure (.some (Or.inr ⟨hroot, rfl⟩))

theorem locationRound_tracks {x y : Location} (h : LocationAlike root root' x y) :
    Tracks (StepTracks (LocationAlike root root') (LocationAlike root root')) (locationRound x)
      (locationRound y) := by
  obtain ⟨common, rfl, hcommon⟩ := h
  refine Tracks.bind_bool _ (Tracks.pure ⟨common, rfl, hcommon⟩) ?_
  apply Tracks.bind (commonDirective_tracks hcommon)
  rintro _ _ (⟨hset⟩ | _)
  · exact Tracks.pure ⟨_, rfl, hset⟩
  · refine Tracks.bind_bool _ ?_ (Tracks.bind_bool _ ?_ (Tracks.bind_bool _ ?_
      (Tracks.bind_same _ fun token => Tracks.throw _)))
    · exact Tracks.bind_same _ fun option => Tracks.pure ⟨common, rfl, hcommon⟩
    · exact Tracks.bind_same _ fun threshold => Tracks.pure ⟨common, rfl, hcommon⟩
    · exact Tracks.bind_same _ fun size => Tracks.pure ⟨common, rfl, hcommon⟩

/-- A new location takes nothing of the root. -/
theorem parseLocation_alike {x y : CommonConfig} (h : CommonAlike root root' x y) :
    parseLocation y = parseLocation x := by
  rcases h with rfl | ⟨_, rfl⟩
  · rfl
  · rfl

theorem serverDirective_tracks {x y : Config} (h : ConfigAlike root root' front front' x y) :
    Tracks (ConfigAlike root root' front front') (serverDirective x) (serverDirective y) := by
  obtain ⟨common, rest, hfront, rfl, hcommon⟩ := h
  apply Tracks.bind (commonDirective_tracks hcommon)
  rintro _ _ (⟨hset⟩ | _)
  · exact Tracks.pure ⟨_, rest, hfront, rfl, hset⟩
  · refine Tracks.bind_bool _ ?_ (Tracks.bind_bool _ ?_ (Tracks.bind_bool _ ?_
      (Tracks.bind_bool _ ?_ (Tracks.bind_same _ fun token => Tracks.throw _))))
    · exact Tracks.bind_same _ fun entries => Tracks.pure ⟨common, rest, hfront, rfl, hcommon⟩
    · exact Tracks.bind_same _ fun names => Tracks.pure ⟨common, rest, hfront, rfl, hcommon⟩
    · simp only [parseLocation_alike hcommon]
      refine Tracks.bind_same _ fun location => Tracks.pure ⟨common, rest ++ [location], ?_, ?_, hcommon⟩
      · rw [hfront, List.append_assoc]
      · rw [← List.append_assoc]
    · exact Tracks.bind_same _ fun timeout => Tracks.pure ⟨common, rest, hfront, rfl, hcommon⟩

theorem serverRound_tracks {x y : Config} (h : ConfigAlike root root' front front' x y) :
    Tracks (StepTracks (ConfigAlike root root' front front') (ConfigAlike root root' front front'))
      (serverRound x) (serverRound y) := by
  refine Tracks.bind_bool _ (Tracks.pure h) (Tracks.bind_bool _ (Tracks.pure h) ?_)
  exact Tracks.bind (serverDirective_tracks h) fun _ _ hxy => Tracks.pure hxy

end Unread

section Rounds

variable {σ : Type} {body : σ → ConfigParser (ForInStep σ)} {s s' : σ} {l r : List Token}

/-- Every round that goes on reads a token, so a round for each token suffices. -/
private theorem loopFrom_fuel (hbody : ∀ s, Writes AnyType (body s) Progress)
    {fuel fuel' : Nat} (hl : Scanned l) (hfuel : l.length < fuel) (hfuel' : l.length < fuel') :
    loopFrom .outOfFuel body fuel s l = loopFrom .outOfFuel body fuel' s l := by
  induction fuel generalizing fuel' s l with
  | zero => omega
  | succ fuel ih =>
      obtain ⟨fuel', rfl⟩ : ∃ less, fuel' = less + 1 := ⟨fuel' - 1, by omega⟩
      cases hround : body s l with
      | error e =>
          rw [loopFrom, loopFrom]
          exact (bind_of_error _ hround).trans (bind_of_error _ hround).symm
      | ok outcome =>
          obtain ⟨step, r⟩ := outcome
          obtain ⟨c, rfl, _, hc, hr⟩ := (hbody s).read hl hround
          rw [loopFrom, loopFrom, bind_of_ok _ hround, bind_of_ok _ hround]
          cases step with
          | done s' => rfl
          | yield s' =>
              have hpos := List.length_pos_iff.mpr hc
              rw [List.length_append] at hfuel hfuel'
              exact ih hr (by omega) (by omega)

/-- A loop goes on behind its first round. -/
theorem loop_yield (hbody : ∀ s, Writes AnyType (body s) Progress) (hl : Scanned l)
    (h : body s l = .ok (.yield s', r)) :
    ConfigParser.loop body s l = ConfigParser.loop body s' r := by
  obtain ⟨c, rfl, _, hc, hr⟩ := (hbody s).read hl h
  have hpos := List.length_pos_iff.mpr hc
  rw [ConfigParser.loop, TokenParser.loop, loopFrom, bind_of_ok _ h]
  exact loopFrom_fuel hbody hr (by rw [List.length_append]; omega) (by omega)

end Rounds

section Accepting

variable {temp temp' : Config} {location location' : Location} {l m r : List Token}
  {configs : List Config} {t u : Token}

/-- What is left of a server block between two of its directives. -/
def serverRest (temp : Config) : ConfigParser Config := do
  let temp ← ConfigParser.loop serverRound temp
  let _ ← consume .rightBrace "expected terminator '\x7d' after server block content"
  lift (checkForEmpty temp)

/-- What is left of a location block between two of its directives. -/
def locationRest (location : Location) : ConfigParser Location := do
  let location ← ConfigParser.loop locationRound location
  let _ ← consume .rightBrace "expected closing '\x7d' for location block"
  pure location

theorem serverRest_yield (hl : Scanned l) (h : serverRound temp l = .ok (.yield temp', r)) :
    serverRest temp l = serverRest temp' r :=
  bind_congr_at _ (loop_yield ConfigTokens.writes_serverRound hl h)

theorem locationRest_yield (hl : Scanned l)
    (h : locationRound location l = .ok (.yield location', r)) :
    locationRest location l = locationRest location' r :=
  bind_congr_at _ (loop_yield (fun s => (ConfigTokens.writes_locationRound s).any) hl h)

/-- From between two server blocks on, the file gives these servers. -/
def Accepts (temp : Config) (l : List Token) (configs : List Config) : Prop :=
  ∃ temp', Blocks temp l configs temp' [endOfFile]

/-- From here on, the server block gives `server`, and the blocks behind it `configs`. -/
def AcceptsServer (temp : Config) (l : List Token) (server : Config) (configs : List Config) :
    Prop :=
  ∃ m, serverRest temp l = .ok (server, m) ∧ Accepts server m configs

/-- From here on, the location block gives `block`, and then its server block `server`. -/
def AcceptsLocation (temp : Config) (location : Location) (l : List Token) (block : Location)
    (server : Config) (configs : List Config) : Prop :=
  ∃ m, locationRest location l = .ok (block, m) ∧
    AcceptsServer { temp with location := temp.location ++ [block] } m server configs

/-- The blocks behind others are accepted if all of them are. -/
theorem accepts_behind (h : Blocks temp l configs temp' m) {all : List Config} :
    Accepts temp l all ↔ ∃ rest, Accepts temp' m rest ∧ all = configs ++ rest := by
  constructor
  · rintro ⟨x, hall⟩
    induction h generalizing all with
    | nil temp l => exact ⟨all, ⟨x, hall⟩, rfl⟩
    | block ht hblock _ ih =>
        cases hall with
        | nil => cases ht
        | block _ hblock' hrest =>
            rw [hblock] at hblock'
            cases hblock'
            obtain ⟨rest, haccepts, rfl⟩ := ih hrest
            exact ⟨rest, haccepts, rfl⟩
  · rintro ⟨rest, ⟨x, hrest⟩, rfl⟩
    exact ⟨x, h.append hrest⟩

theorem accepts_server (ht : t.type = .server) (hu : u.type = .leftBrace) :
    Accepts temp (t :: u :: l) configs ↔
      ∃ x rest, AcceptsServer (fillDefaultValues temp) l x rest ∧ configs = x :: rest := by
  have hblock : serverBlock temp (u :: l) = serverRest (fillDefaultValues temp) l :=
    bind_of_ok _ (consume_cons (by decide) _ l hu)
  constructor
  · rintro ⟨x, hall⟩
    cases hall with
    | block _ hserver hrest => exact ⟨_, _, ⟨_, hblock.symm.trans hserver, x, hrest⟩, rfl⟩
  · rintro ⟨x, rest, ⟨m, hserver, x', hrest⟩, rfl⟩
    exact ⟨x', .block ht (hblock.trans hserver) hrest⟩

/-- A block takes nothing but the path of `return` from the one in front of it. -/
theorem Accepts.of_defaults (h : Accepts temp l configs)
    (hsame : fillDefaultValues temp = fillDefaultValues temp') : Accepts temp' l configs := by
  obtain ⟨x, hall⟩ := h
  cases hall with
  | nil => exact ⟨temp', .nil _ _⟩
  | @block _ y _ u l m _ configs ht hblock hrest =>
      have hblock' : serverBlock temp' l = .ok (y, m) := by
        rw [← hblock, serverBlock, serverBlock, hsame]
      exact ⟨x, .block ht hblock' hrest⟩

theorem AcceptsServer.of_alike {root root' : Bytes} {front front' : List Location}
    {server : Config} (h : AcceptsServer temp l server configs)
    (halike : ConfigAlike root root' front front' temp temp') :
    ∃ server', AcceptsServer temp' l server' configs ∧
      ConfigAlike root root' front front' server server' := by
  obtain ⟨m, hrest, haccepts⟩ := h
  have htracks : Tracks (ConfigAlike root root' front front') (serverRest temp)
      (serverRest temp') := by
    apply Tracks.bind (Tracks.loop (fun _ _ => serverRound_tracks) halike)
    rintro x _ ⟨common, rest, hfront, rfl, hcommon⟩
    refine Tracks.bind_same _ fun _ => ?_
    intro l y r hlift
    obtain ⟨hcheck, rfl⟩ := lift_ok_iff.mp hlift
    unfold checkForEmpty at hcheck
    split at hcheck
    · cases hcheck
    · rename_i hempty
      cases hcheck
      exact ⟨_, lift_ok_iff.mpr ⟨if_neg hempty, rfl⟩, common, rest, hfront, rfl, hcommon⟩
  obtain ⟨server', hserver', hserver⟩ := htracks l server m hrest
  refine ⟨server', ⟨m, hserver', haccepts.of_defaults ?_⟩, hserver⟩
  obtain ⟨common, rest, _, rfl, rfl | ⟨_, rfl⟩⟩ := hserver
  · rfl
  · rfl

theorem AcceptsLocation.of_alike {root root' : Bytes} {block : Location} {server : Config}
    (h : AcceptsLocation temp location l block server configs)
    (halike : LocationAlike root root' location location') :
    ∃ block' server', AcceptsLocation temp location' l block' server' configs ∧
      LocationAlike root root' block block' ∧
      ConfigAlike [] [] (temp.location ++ [block]) (temp.location ++ [block']) server server' := by
  obtain ⟨m, hrest, haccepts⟩ := h
  have htracks : Tracks (LocationAlike root root') (locationRest location)
      (locationRest location') := by
    apply Tracks.bind (Tracks.loop (fun _ _ => locationRound_tracks) halike)
    intro x y hxy
    exact Tracks.bind_same _ fun _ => Tracks.pure hxy
  obtain ⟨block', hblock', hblock⟩ := htracks l block m hrest
  have hbehind : ConfigAlike [] [] (temp.location ++ [block]) (temp.location ++ [block'])
      { temp with location := temp.location ++ [block] }
      { temp with location := temp.location ++ [block'] } :=
    ⟨temp.common, [], (List.append_nil _).symm, by rw [List.append_nil], Or.inl rfl⟩
  obtain ⟨server', hserver', hserver⟩ := haccepts.of_alike hbehind
  exact ⟨block', server', ⟨m, hblock', hserver'⟩, hblock, hserver⟩

end Accepting

section Places

/-- Where a directive can stand: behind these server blocks, in a server block that has
come to `temp`, or in one of its locations. -/
inductive DirectivePlace where
  | server (configs : List Config) (temp : Config)
  | location (configs : List Config) (temp : Config) (location : Location)

namespace DirectivePlace

/-- The place once the root of its block is set. -/
def setRoot (root : Bytes) : DirectivePlace → DirectivePlace
  | .server configs temp =>
      .server configs { temp with common := { temp.common with root := root } }
  | .location configs temp current =>
      .location configs temp { current with common := { current.common with root := root } }

/-- From the place on, the file gives these servers. -/
def Accepts : DirectivePlace → List Token → List Config → Prop
  | .server configs temp, l, all =>
      ∃ x rest, AcceptsServer temp l x rest ∧ all = configs ++ x :: rest
  | .location configs temp current, l, all =>
      ∃ y x rest, AcceptsLocation temp current l y x rest ∧ all = configs ++ x :: rest

/-- The same servers, but that the block of the place has the root, unless another of its
directives sets it. -/
def Rerooted (root : Bytes) : DirectivePlace → List Config → List Config → Prop
  | .server configs _, all, all' =>
      ∃ x rest common, (common = x.common ∨ common = { x.common with root := root }) ∧
        all = configs ++ x :: rest ∧ all' = configs ++ { x with common := common } :: rest
  | .location configs temp _, all, all' =>
      ∃ x y more rest common, (common = y.common ∨ common = { y.common with root := root }) ∧
        x.location = temp.location ++ y :: more ∧ all = configs ++ x :: rest ∧
        all' = configs ++
          { x with location := temp.location ++ { y with common := common } :: more } :: rest

theorem Accepts.setRoot {place : DirectivePlace} {l : List Token} {all : List Config}
    (h : place.Accepts l all) (root : Bytes) :
    ∃ all', (place.setRoot root).Accepts l all' ∧ place.Rerooted root all all' := by
  cases place with
  | server configs temp =>
      obtain ⟨x, rest, haccepts, rfl⟩ := h
      have halike : ConfigAlike temp.common.root root temp.location temp.location temp
          { temp with common := { temp.common with root := root } } :=
        ⟨_, [], (List.append_nil _).symm, by rw [List.append_nil], Or.inr ⟨rfl, rfl⟩⟩
      obtain ⟨y, hy, common, more, hmore, rfl, hcommon⟩ := haccepts.of_alike halike
      rw [← hmore] at hy
      refine ⟨_, ⟨_, rest, hy, rfl⟩, x, rest, common, ?_, rfl, rfl⟩
      exact hcommon.imp id And.right
  | location configs temp current =>
      obtain ⟨y, x, rest, haccepts, rfl⟩ := h
      have halike : LocationAlike current.common.root root current
          { current with common := { current.common with root := root } } :=
        ⟨_, rfl, Or.inr ⟨rfl, rfl⟩⟩
      obtain ⟨y', x', hx', ⟨common, rfl, hcommon⟩, common', more, hmore, rfl, hsame⟩ :=
        haccepts.of_alike halike
      rw [hsame.eq, List.append_assoc] at hx'
      rw [List.append_assoc] at hmore
      exact ⟨_, ⟨_, _, rest, hx', rfl⟩, x, y, more, rest, common, hcommon.imp id And.right, hmore,
        rfl, rfl⟩

end DirectivePlace

/-- The last token of a directive. -/
def Closing (t : Token) : Prop := t.type = .semicolon ∨ t.type = .rightBrace

/-- The tokens are directives that make of the one location the other, whatever stands
behind them. -/
inductive Options : Location → List Token → Location → Prop
  | nil (location : Location) : Options location [] location
  | cons {location location' location'' : Location} {d c : List Token} {t : Token}
      (ht : Closing t)
      (hround : ∀ r, locationRound location (d ++ t :: r) = .ok (.yield location', r))
      (hrest : Options location' c location'') : Options location (d ++ t :: c) location''

/-- The tokens lead to the place, whatever stands behind them. -/
inductive Stands : List Token → DirectivePlace → Prop
  | server {c : List Token} {t u : Token} {configs : List Config} {temp : Config}
      (hblocks : ∀ r, Blocks {} (c ++ r) configs temp r) (ht : t.type = .server)
      (hu : u.type = .leftBrace) :
      Stands (c ++ [t, u]) (.server configs (fillDefaultValues temp))
  | directive {c d : List Token} {t : Token} {configs : List Config} {temp temp' : Config}
      (hbefore : Stands c (.server configs temp)) (ht : Closing t)
      (hround : ∀ r, serverRound temp (d ++ t :: r) = .ok (.yield temp', r)) :
      Stands (c ++ (d ++ [t])) (.server configs temp')
  | location {c p b : List Token} {t u : Token} {path : Bytes} {configs : List Config}
      {temp : Config} {location : Location} (hbefore : Stands c (.server configs temp))
      (ht : t.type = .location) (hpath : ∀ r, parsePath (p ++ u :: r) = .ok (path, u :: r))
      (hne : path ≠ []) (hu : u.type = .leftBrace)
      (hoptions : Options (newLocation temp.common path) b location) :
      Stands (c ++ (t :: p ++ u :: b)) (.location configs temp location)

variable {temp : Config} {location location' : Location} {c l p b : List Token} {t u : Token}
  {path : Bytes} {configs : List Config} {place : DirectivePlace}

theorem Options.rest (h : Options location b location') (hl : Scanned (b ++ l)) (hne : l ≠ []) :
    locationRest location (b ++ l) = locationRest location' l := by
  induction h with
  | nil location => rfl
  | @cons location location' location'' d c t ht hround hrest ih =>
      have hbehind : Scanned (c ++ l) := by
        refine ConfigTokens.Scanned.suffix (c := d ++ [t]) ?_ (by simp [hne])
        simpa using hl
      have hfirst : locationRest location (d ++ t :: (c ++ l)) = locationRest location' (c ++ l) :=
        locationRest_yield (by simpa using hl) (hround (c ++ l))
      rw [List.append_assoc, List.cons_append, hfirst, ih hbehind]

theorem Options.snoc {location'' : Location} {d : List Token} (h : Options location c location')
    (ht : Closing t)
    (hround : ∀ r, locationRound location' (d ++ t :: r) = .ok (.yield location'', r)) :
    Options location (c ++ (d ++ [t])) location'' := by
  induction h with
  | nil location => exact .cons ht hround (.nil _)
  | @cons location location' _ d' c u hu hfirst hrest ih =>
      rw [List.append_assoc, List.cons_append]
      exact .cons hu hfirst (ih hround)

/-- A location is parsed as its path, its brace and its directives. -/
theorem parseLocation_rest (hpath : parsePath (p ++ u :: l) = .ok (path, u :: l)) (hne : path ≠ [])
    (hu : u.type = .leftBrace) (server : CommonConfig) :
    parseLocation server (p ++ u :: l) = locationRest (newLocation server path) l := by
  rw [parseLocation, bind_of_ok _ hpath, if_neg hne]
  exact bind_of_ok _ (consume_cons (by decide) _ l hu)

theorem serverRound_location (ht : t.type = .location) (temp : Config) (l : List Token) :
    serverRound temp (t :: l) =
      (parseLocation temp.common >>= fun location =>
        pure (.yield { temp with location := temp.location ++ [location] })) l := by
  obtain ⟨type, lexeme, line, column⟩ := t
  obtain rfl : type = .location := ht
  change ((parseLocation temp.common >>= fun location =>
    pure { temp with location := temp.location ++ [location] }) >>= fun temp =>
    pure (ForInStep.yield temp)) l = _
  rw [bind_assoc]
  rfl

theorem acceptsServer_location (ht : t.type = .location)
    (hlocation : parseLocation temp.common c = locationRest location l)
    (hl : Scanned (t :: c)) {x : Config} {rest : List Config} :
    AcceptsServer temp (t :: c) x rest ↔ ∃ y, AcceptsLocation temp location l y x rest := by
  have hround := (serverRound_location ht temp c).trans (bind_congr_at _ hlocation)
  constructor
  · rintro ⟨m, hrest, haccepts⟩
    obtain ⟨after, m', hloop, _⟩ := bind_ok_iff.mp hrest
    obtain ⟨step, n, hfirst, _⟩ := bind_ok_iff.mp hloop
    rw [hround] at hfirst
    obtain ⟨y, n', hy, hpure⟩ := bind_ok_iff.mp hfirst
    rw [bind_of_ok _ hy] at hround
    exact ⟨y, n', hy, m, (serverRest_yield hl hround).symm.trans hrest, haccepts⟩
  · rintro ⟨y, n, hy, m, hrest, haccepts⟩
    rw [bind_of_ok _ hy] at hround
    exact ⟨m, (serverRest_yield hl hround).trans hrest, haccepts⟩

/-- The file gives what it gives from the place on. -/
theorem Stands.accepts_iff (h : Stands c place) (hl : Scanned (c ++ l)) (hne : l ≠ [])
    {all : List Config} : Accepts {} (c ++ l) all ↔ place.Accepts l all := by
  induction h generalizing l all with
  | @server c t u configs temp hblocks ht hu =>
      rw [List.append_assoc, accepts_behind (hblocks _)]
      constructor
      · rintro ⟨_, haccepts, rfl⟩
        obtain ⟨x, rest, hserver, rfl⟩ := (accepts_server ht hu).mp haccepts
        exact ⟨x, rest, hserver, rfl⟩
      · rintro ⟨x, rest, hserver, rfl⟩
        exact ⟨_, (accepts_server ht hu).mpr ⟨x, rest, hserver, rfl⟩, rfl⟩
  | @directive c d t configs temp temp' hbefore ht hround ih =>
      rw [List.append_assoc] at hl ⊢
      have hsuffix : Scanned (d ++ t :: l) := by simpa using hl.suffix (by simp)
      have hrest : serverRest temp (d ++ t :: l) = serverRest temp' l :=
        serverRest_yield hsuffix (hround l)
      rw [ih hl (by simp), List.append_assoc, List.singleton_append]
      simp only [DirectivePlace.Accepts, AcceptsServer, hrest]
  | @location c p b t u path configs temp location hbefore ht hpath hpathne hu hoptions ih =>
      rw [List.append_assoc] at hl ⊢
      have hsuffix : Scanned (t :: (p ++ u :: (b ++ l))) := by simpa using hl.suffix (by simp)
      have hbody : Scanned (b ++ l) := by
        refine ConfigTokens.Scanned.suffix (c := t :: (p ++ [u])) ?_ (by simp [hne])
        simpa using hsuffix
      have hlocation := parseLocation_rest (hpath (b ++ l)) hpathne hu temp.common
      rw [hoptions.rest hbody hne] at hlocation
      rw [ih hl (by simp), List.append_assoc, List.cons_append, List.cons_append]
      simp only [DirectivePlace.Accepts, acceptsServer_location ht hlocation hsuffix]
      constructor
      · rintro ⟨x, rest, ⟨y, haccepts⟩, rfl⟩
        exact ⟨y, x, rest, haccepts, rfl⟩
      · rintro ⟨y, x, rest, haccepts, rfl⟩
        exact ⟨x, rest, ⟨y, haccepts⟩, rfl⟩

end Places

section Inserting

/-- Whatever stands behind the text, the scanner reads these tokens of it and is then in
the line `line'`. -/
def Scans (line current : Int) (text : Bytes) (tokens : List Token) (line' : Int) : Prop :=
  ∀ more, scan ⟨line, current, text ++ more⟩ =
    tokens ++ scan ⟨line', current + text.length, more⟩

/-- A directive can stand behind the text, at the place. -/
def StandsAt (before : Bytes) (place : DirectivePlace) : Prop :=
  ∃ tokens line, Scans 1 0 before tokens line ∧ Stands tokens place

variable {line line' line'' current k : Int} {text text' before directive after : Bytes}
  {tokens tokens' inserted c l l' : List Token} {place place' : DirectivePlace}
  {location location' : Location}

theorem Scans.append (h : Scans line current text tokens line')
    (h' : Scans line' (current + text.length) text' tokens' line'') :
    Scans line current (text ++ text') (tokens ++ tokens') line'' := by
  intro more
  rw [List.append_assoc, h, h', List.append_assoc, List.length_append]
  push_cast
  rw [Int.add_assoc]

private theorem Options.last (h : Options location c location') :
    ∀ t ∈ c.getLast?, t.type ≠ .identifier := by
  induction h with
  | nil => nofun
  | @cons location location' location'' d c t ht hround hrest ih =>
      intro u hu
      rw [List.getLast?_append_cons] at hu
      cases c with
      | nil =>
          obtain rfl : t = u := by simpa using hu
          rcases ht with h | h <;> rw [h] <;> decide
      | cons v c => exact ih u (by rwa [List.getLast?_cons_cons] at hu)

/-- A directive does not stand behind an identifier. -/
theorem Stands.last (h : Stands c place) : ∀ t ∈ c.getLast?, t.type ≠ .identifier := by
  intro u hu
  cases h with
  | @server c t v configs temp hblocks ht hv =>
      obtain rfl : v = u := by simpa using hu
      rw [hv]
      decide
  | @directive c d t configs temp temp' hbefore ht hround =>
      obtain rfl : t = u := by simpa using hu
      rcases ht with h | h <;> rw [h] <;> decide
  | @location c p b t v path configs temp location hbefore ht hpath hne hv hoptions =>
      rw [← List.append_assoc, List.getLast?_append_cons] at hu
      cases b with
      | nil =>
          obtain rfl : v = u := by simpa using hu
          rw [hv]
          decide
      | cons w b => exact hoptions.last u (by rwa [List.getLast?_cons_cons] at hu)

private theorem areErrorCodes_last {codes : List Token} (h : areErrorCodes codes = true) :
    ∀ q ∈ codes.getLast?, q.type = .identifier := by
  intro q hq
  fun_induction areErrorCodes codes with
  | case1 => cases h
  | case2 t =>
      obtain rfl : t = q := by simpa using hq
      simp only [isNumber, Bool.and_eq_true, beq_iff_eq] at h
      exact h.1
  | case3 t u rest ih =>
      rw [List.getLast?_cons_cons] at hq
      simp only [Bool.and_eq_true] at h
      exact ih h.2 hq

/-- Tokens behind a place may be moved. -/
theorem accepts_moved (hlast : ∀ t ∈ c.getLast?, t.type ≠ .identifier)
    (hmoved : List.Forall₂ (Moved k) l l') (hsound : Separated (c ++ l ++ [endOfFile]))
    (hsound' : Separated (c ++ l')) {configs : List Config}
    (h : Accepts {} (c ++ l ++ [endOfFile]) configs) :
    Accepts {} (c ++ l' ++ [endOfFile]) configs := by
  obtain ⟨temp, hblocks⟩ := h
  obtain ⟨d, hd, hagain⟩ := hblocks.again hsound
  obtain rfl := List.append_cancel_right hd
  have halike : AlikeTokens (c ++ l) (c ++ l') := by
    apply alike_behind hmoved hsound'
    rintro first t codes rfl _ hcodes q hq
    have hidentifier := areErrorCodes_last hcodes q hq
    refine absurd hidentifier (hlast q ?_)
    cases codes with
    | nil => cases hq
    | cons u codes => rwa [List.getLast?_append_cons, List.getLast?_cons_cons]
  obtain ⟨configs', temp', hblocks', hsame⟩ :=
    hagain {} (c ++ l') [endOfFile] halike.same.length_eq.symm halike
  obtain rfl := hsame.mpr (Or.inr (Or.inl rfl))
  exact ⟨temp', hblocks'⟩

/-- What stands behind a place is accepted behind a directive at the place as well, with
the results that the directive gives there. -/
theorem parse_insert (hbefore : Scans 1 0 before tokens line) (hplace : Stands tokens place)
    (hdirective : Scans line before.length directive inserted line')
    (hplace' : Stands (tokens ++ inserted) place') (hend : directive.getLast? ≠ some 10)
    (hne : directive ≠ []) {all : List Config} (hparse : parse (before ++ after) = .ok all)
    {R : List Config → Prop}
    (haccepts : ∀ l, place.Accepts l all → ∃ all', place'.Accepts l all' ∧ R all') :
    ∃ all', parse (before ++ directive ++ after) = .ok all' ∧ R all' := by
  obtain ⟨_, hlast, temp, hblocks⟩ := parse_eq_ok_iff.mp hparse
  have hboth := hbefore.append (by simpa using hdirective)
  obtain ⟨l, hl⟩ : ∃ l, scan ⟨line, 0 + before.length, after ++ [10]⟩ = l := ⟨_, rfl⟩
  obtain ⟨l', hl'⟩ : ∃ l',
      scan ⟨line', 0 + (before ++ directive).length, after ++ [10]⟩ = l' := ⟨_, rfl⟩
  have hfirst := hbefore (after ++ [10])
  have hsecond := hboth (after ++ [10])
  rw [hl, ← List.append_assoc] at hfirst
  rw [hl', ← List.append_assoc (before ++ directive)] at hsecond
  have hmoved : List.Forall₂ (Moved directive.length) l l' := by
    rw [← hl, ← hl']
    refine scan_moved rfl ?_
    rw [List.length_append]
    push_cast
    exact (Int.add_assoc _ _ _).symm
  have hread : ∀ t ∈ tokens ++ inserted ++ l', t.type ≠ .endOfFile ∧ t.lexeme ≠ [] := by
    rw [← hsecond]
    exact fun t => ConfigTokens.scan_token
  have hsound : Separated (tokens ++ l ++ [endOfFile]) := by
    rw [← hfirst]
    exact scan_separated _
  have hall : Separated (tokens ++ inserted ++ l' ++ [endOfFile]) := by
    rw [← hsecond]
    exact scan_separated _
  have hsound' : Separated (tokens ++ l') := by
    refine List.isChain_append.mpr ⟨hall.left.left.left, hall.left.right, ?_⟩
    intro t ht _ _ htype
    exact absurd htype (hplace.last t ht)
  have haccepted : Accepts {} (tokens ++ l' ++ [endOfFile]) all := by
    refine accepts_moved hplace.last hmoved hsound hsound' ⟨temp, ?_⟩
    rw [← hfirst]
    exact hblocks
  have hscanned : Scanned (tokens ++ l' ++ [endOfFile]) := by
    apply ConfigTokens.scanned_concat
    intro t ht
    apply hread t
    rcases List.mem_append.mp ht with ht | ht
    · simp [ht]
    · simp [ht]
  rw [List.append_assoc] at haccepted hscanned
  obtain ⟨all', hrest, hR⟩ := haccepts _ ((hplace.accepts_iff hscanned (by simp)).mp haccepted)
  have hscanned' := ConfigTokens.scanned_concat hread
  rw [List.append_assoc _ l'] at hscanned'
  obtain ⟨temp', hblocks'⟩ := (hplace'.accepts_iff hscanned' (by simp)).mpr hrest
  refine ⟨all', parse_eq_ok_iff.mpr ⟨by simp [hne], ?_, temp', ?_⟩, hR⟩
  · cases after with
    | nil =>
        rw [List.append_nil, List.getLast?_append_of_ne_nil _ hne]
        exact hend
    | cons d after =>
        rw [List.getLast?_append_cons]
        rwa [List.getLast?_append_cons] at hlast
  · rw [← List.append_assoc, ← hsecond] at hblocks'
    exact hblocks'

end Inserting

end FortyTwo.Webserv
