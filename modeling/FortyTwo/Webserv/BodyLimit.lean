import FortyTwo.Webserv.ServerResponse

/-!
The two routing decisions behind the body limit: `get_location_max_body_size`
looks for a location that is the directory of the path, the response for the
longest location that the path begins with.
-/

namespace FortyTwo.Webserv

/-- The longest of the non-empty locations that the path begins with, and the
first of that length. -/
def IsLongestMatch (locations : List Location) (uriPath : Bytes) (location : Location) : Prop :=
  ∃ before after, locations = before ++ location :: after ∧ location.path <+: uriPath ∧
    location.path ≠ [] ∧
    (∀ other ∈ before, other.path <+: uriPath → other.path.length < location.path.length) ∧
    ∀ other ∈ after, other.path <+: uriPath → other.path.length ≤ location.path.length

def NoMatch (locations : List Location) (uriPath : Bytes) : Prop :=
  ∀ location ∈ locations, location.path <+: uriPath → location.path = []

/-- A step of the loop of `find_best_location_match`. -/
private def betterMatch (uriPath : Bytes) (best : Option Location × Nat) (location : Location) :
    Option Location × Nat :=
  if location.path.isPrefixOf uriPath ∧ location.path.length > best.2 then
    (some location, location.path.length)
  else best

private theorem foldl_betterMatch_of_le {uriPath : Bytes} {best : Option Location × Nat}
    {locations : List Location}
    (h : ∀ other ∈ locations, other.path <+: uriPath → other.path.length ≤ best.2) :
    locations.foldl (betterMatch uriPath) best = best := by
  induction locations with
  | nil => rfl
  | cons location rest ih =>
      have hkeep : betterMatch uriPath best location = best := by
        refine if_neg fun ⟨hmatch, hlonger⟩ => ?_
        have hle := h location List.mem_cons_self (List.isPrefixOf_iff_prefix.mp hmatch)
        omega
      rw [List.foldl_cons, hkeep]
      exact ih fun other hother => h other (List.mem_cons_of_mem _ hother)

private theorem foldl_betterMatch_lt {uriPath : Bytes} {best : Option Location × Nat} {n : Nat}
    {locations : List Location} (hbest : best.2 < n)
    (h : ∀ other ∈ locations, other.path <+: uriPath → other.path.length < n) :
    (locations.foldl (betterMatch uriPath) best).2 < n := by
  induction locations generalizing best with
  | nil => exact hbest
  | cons location rest ih =>
      refine ih ?_ fun other hother => h other (List.mem_cons_of_mem _ hother)
      unfold betterMatch
      split
      · next hmatch =>
          exact h location List.mem_cons_self (List.isPrefixOf_iff_prefix.mp hmatch.1)
      · exact hbest

theorem findBestLocationMatch_of_longest {config : Config} {uriPath : Bytes} {location : Location}
    (h : IsLongestMatch config.location uriPath location) :
    findBestLocationMatch config uriPath = some location := by
  obtain ⟨before, after, hsplit, hmatch, hne, hbefore, hafter⟩ := h
  have hpos := List.length_pos_iff.mpr hne
  have hshorter : (before.foldl (betterMatch uriPath) (none, 0)).2 < location.path.length :=
    foldl_betterMatch_lt hpos hbefore
  have hstep : betterMatch uriPath (before.foldl (betterMatch uriPath) (none, 0)) location =
      (some location, location.path.length) :=
    if_pos ⟨List.isPrefixOf_iff_prefix.mpr hmatch, hshorter⟩
  change (config.location.foldl (betterMatch uriPath) (none, 0)).1 = _
  rw [hsplit, List.foldl_append, List.foldl_cons, hstep, foldl_betterMatch_of_le hafter]

theorem findBestLocationMatch_of_none {config : Config} {uriPath : Bytes}
    (h : NoMatch config.location uriPath) : findBestLocationMatch config uriPath = none := by
  change (config.location.foldl (betterMatch uriPath) (none, 0)).1 = _
  rw [foldl_betterMatch_of_le]
  intro other hother hmatch
  rw [h other hother hmatch]
  exact le_rfl

private theorem noMatch_concat {locations : List Location} {last : Location} {uriPath : Bytes}
    (h : NoMatch locations uriPath) (hlast : last.path <+: uriPath → last.path = []) :
    NoMatch (locations ++ [last]) uriPath := by
  intro location hlocation hprefix
  rcases List.mem_append.mp hlocation with hmem | hmem
  · exact h location hmem hprefix
  · rw [List.mem_singleton.mp hmem] at hprefix ⊢
    exact hlast hprefix

/-- A later match that is not longer changes nothing. -/
private theorem IsLongestMatch.concat {locations : List Location} {best last : Location}
    {uriPath : Bytes} (h : IsLongestMatch locations uriPath best)
    (hlast : last.path <+: uriPath → last.path.length ≤ best.path.length) :
    IsLongestMatch (locations ++ [last]) uriPath best := by
  obtain ⟨before, after, rfl, hbest, hne, hbefore, hafter⟩ := h
  refine ⟨before, after ++ [last], by simp, hbest, hne, hbefore, ?_⟩
  intro other hother hprefix
  rcases List.mem_append.mp hother with hmem | hmem
  · exact hafter other hmem hprefix
  · rw [List.mem_singleton.mp hmem] at hprefix ⊢
    exact hlast hprefix

private theorem isLongestMatch_last {locations : List Location} {last : Location}
    {uriPath : Bytes} (hmatch : last.path <+: uriPath) (hne : last.path ≠ [])
    (hlonger : ∀ other ∈ locations, other.path <+: uriPath →
      other.path.length < last.path.length) :
    IsLongestMatch (locations ++ [last]) uriPath last :=
  ⟨locations, [], rfl, hmatch, hne, hlonger, fun _ h => by cases h⟩

theorem IsLongestMatch.length_le {locations : List Location} {best other : Location}
    {uriPath : Bytes} (h : IsLongestMatch locations uriPath best) (hother : other ∈ locations)
    (hmatch : other.path <+: uriPath) : other.path.length ≤ best.path.length := by
  obtain ⟨before, after, rfl, -, -, hbefore, hafter⟩ := h
  rcases List.mem_append.mp hother with hmem | hmem
  · exact (hbefore other hmem hmatch).le
  · rcases List.mem_cons.mp hmem with rfl | hmem
    · exact le_rfl
    · exact hafter other hmem hmatch

theorem longestMatch_or_none (locations : List Location) (uriPath : Bytes) :
    NoMatch locations uriPath ∨ ∃ location, IsLongestMatch locations uriPath location := by
  induction locations using List.reverseRecOn with
  | nil => exact Or.inl fun _ h => by cases h
  | append_singleton locations last ih =>
      rcases ih with hnone | ⟨best, hbest⟩
      · by_cases hlast : last.path <+: uriPath → last.path = []
        · exact Or.inl (noMatch_concat hnone hlast)
        · obtain ⟨hmatch, hne⟩ := Classical.not_imp.mp hlast
          refine Or.inr ⟨last, isLongestMatch_last hmatch hne fun other hother hprefix => ?_⟩
          rw [hnone other hother hprefix]
          exact List.length_pos_iff.mpr hne
      · by_cases hlast : last.path <+: uriPath → last.path.length ≤ best.path.length
        · exact Or.inr ⟨best, hbest.concat hlast⟩
        · obtain ⟨hmatch, hlonger⟩ := Classical.not_imp.mp hlast
          have hlt := not_le.mp hlonger
          refine Or.inr ⟨last, isLongestMatch_last hmatch (fun hempty => ?_)
            fun other hother hprefix => (hbest.length_le hother hprefix).trans_lt hlt⟩
          simp [hempty] at hlt

/-- The limit of the location that the response selects, of the server if there
is none. -/
def selectedLimit (config : Config) (uriPath : Bytes) : Nat :=
  match findBestLocationMatch config uriPath with
  | some location => location.common.maxClientBody
  | none => config.common.maxClientBody

/-- The longest match has the limit `n`, or nothing matches and the server has. -/
def HasLimit (config : Config) (uriPath : Bytes) (n : Nat) : Prop :=
  (∀ location, IsLongestMatch config.location uriPath location →
    location.common.maxClientBody = n) ∧
  (NoMatch config.location uriPath → config.common.maxClientBody = n)

theorem selectedLimit_eq_iff (config : Config) (uriPath : Bytes) (n : Nat) :
    selectedLimit config uriPath = n ↔ HasLimit config uriPath n := by
  rcases longestMatch_or_none config.location uriPath with hnone | ⟨location, hlongest⟩
  · rw [selectedLimit, findBestLocationMatch_of_none hnone]
    constructor
    · intro h
      refine ⟨fun location hlocation => ?_, fun _ => h⟩
      have hsome := findBestLocationMatch_of_longest hlocation
      rw [findBestLocationMatch_of_none hnone] at hsome
      cases hsome
    · exact fun h => h.2 hnone
  · rw [selectedLimit, findBestLocationMatch_of_longest hlongest]
    constructor
    · intro h
      refine ⟨fun other hother => ?_, fun hnone => ?_⟩
      · have hsame := findBestLocationMatch_of_longest hother
        rw [findBestLocationMatch_of_longest hlongest] at hsame
        rw [← Option.some.inj hsame]
        exact h
      · have hsome := findBestLocationMatch_of_none hnone
        rw [findBestLocationMatch_of_longest hlongest] at hsome
        cases hsome
    · exact fun h => h.1 location hlongest

/-- The limit that the head is checked against is that of the response exactly
when the longest match has the limit of the server, for a path right below the
root; that of the location that is the directory of the path, if there is one;
and no limit otherwise. -/
theorem getLocationMaxBodySize_eq_iff (config : Config) (uriPath : Bytes) :
    getLocationMaxBodySize uriPath config = selectedLimit config uriPath ↔
      (getDirectoryPath uriPath = bytes "/" →
        HasLimit config uriPath config.common.maxClientBody) ∧
      (∀ before location after, config.location = before ++ location :: after →
        getDirectoryPath uriPath ≠ bytes "/" → location.path = getDirectoryPath uriPath →
        (∀ other ∈ before, other.path ≠ getDirectoryPath uriPath) →
        HasLimit config uriPath location.common.maxClientBody) ∧
      (getDirectoryPath uriPath ≠ bytes "/" →
        (∀ location ∈ config.location, location.path ≠ getDirectoryPath uriPath) →
        HasLimit config uriPath 0) := by
  rw [eq_comm, selectedLimit_eq_iff, getLocationMaxBodySize]
  by_cases hroot : getDirectoryPath uriPath = bytes "/"
  · simp only [if_pos hroot]
    constructor
    · exact fun h => ⟨fun _ => h, fun _ _ _ _ hne => absurd hroot hne,
        fun hne => absurd hroot hne⟩
    · exact fun h => h.1 hroot
  · simp only [if_neg hroot]
    cases hfind : config.location.find?
        (fun location => location.path == getDirectoryPath uriPath) with
    | none =>
        have hnone : ∀ location ∈ config.location, location.path ≠ getDirectoryPath uriPath := by
          simpa using hfind
        constructor
        · refine fun h => ⟨fun h => absurd h hroot, ?_, fun _ _ => h⟩
          intro before location after hsplit _ hpath _
          exact absurd hpath (hnone location (hsplit ▸ by simp))
        · exact fun h => h.2.2 hroot hnone
    | some found =>
        obtain ⟨hpath, before, after, hsplit, hbefore⟩ := List.find?_eq_some_iff_append.mp hfind
        have hpath' : found.path = getDirectoryPath uriPath := by simpa using hpath
        have hfirst : ∀ other ∈ before, other.path ≠ getDirectoryPath uriPath := by
          simpa using hbefore
        constructor
        · refine fun h => ⟨fun h => absurd h hroot, ?_, ?_⟩
          · intro before' location after' hsplit' _ hlocation hbefore'
            have hfind' : config.location.find?
                (fun location => location.path == getDirectoryPath uriPath) = some location := by
              rw [List.find?_eq_some_iff_append]
              exact ⟨by simpa using hlocation, before', after', hsplit', by simpa using hbefore'⟩
            rw [hfind] at hfind'
            rw [← Option.some.inj hfind']
            exact h
          · intro _ hnone
            exact absurd hpath' (hnone found (hsplit ▸ by simp))
        · exact fun h => h.2.1 before found after hsplit hroot hpath' hfirst

/-- A location limits the uploads right into its directory, and no others. -/
theorem getLocationMaxBodySize_nested :
    ∃ config uriPath, getLocationMaxBodySize uriPath config ≠ selectedLimit config uriPath :=
  ⟨{ location := [{ path := bytes "/upload", common := { maxClientBody := 10 } }] },
    bytes "/upload/a/b", by decide⟩

end FortyTwo.Webserv
