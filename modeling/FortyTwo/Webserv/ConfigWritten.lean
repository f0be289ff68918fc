import FortyTwo.Webserv.ConfigTokens

/-!
Every parser of the configuration file is written over the token functions: what it
does in which order, which tokens it may pass, and that a round of a loop passes one
or is the last.
-/

namespace FortyTwo.Webserv

open Foundation IndexParser ConfigParser

namespace ConfigTokens

variable {α β σ : Type}

/-- There is a parser over an index that is written like `p`, and passes tokens of
these types only. -/
abbrev Writes (Passes : TokenType → Prop) (p : ConfigParser α) (V : α → List Token → Prop) :
    Prop :=
  Writable TokenFunction Reported .outOfFuel p fun a c => (∀ t ∈ c, Passes t.type) ∧ V a c

instance : Nonempty ParserError := ⟨.outOfFuel⟩

section Rules

def Anything (_ : α) (_ : List Token) : Prop := True

def Moves (_ : α) (c : List Token) : Prop := c ≠ []

/-- A round of a loop that goes on has read something. -/
def Progress : ForInStep σ → List Token → Prop
  | .yield _, c => c ≠ []
  | .done _, _ => True

/-- A token that has been read is enough. -/
class Lenient (V : α → List Token → Prop) : Prop where
  of_ne_nil : ∀ a c, c ≠ [] → V a c

instance : Lenient (Anything : α → List Token → Prop) := ⟨fun _ _ _ => trivial⟩

instance : Lenient (Moves : α → List Token → Prop) := ⟨fun _ _ h => h⟩

instance : Lenient (Progress : ForInStep σ → List Token → Prop) where
  of_ne_nil := by
    rintro (s | s) c h
    · trivial
    · exact h

variable {p : ConfigParser α} {V : α → List Token → Prop} {W : β → List Token → Prop}
  {Passes : TokenType → Prop}

/-- What a parser has read, from a token list as the scanner makes it. -/
theorem Writes.read {α : Type} {Passes : TokenType → Prop} {p : ConfigParser α}
    {V : α → List Token → Prop} (h : Writes Passes p V) {l r : List Token} {a : α}
    (hl : Scanned l) (hp : p l = .ok (a, r)) :
    ∃ c, l = c ++ r ∧ (∀ t ∈ c, Passes t.type) ∧ V a c ∧ Scanned r := by
  obtain ⟨q, hq⟩ := h
  have hpos : 0 < l.length := by
    obtain ⟨front, token, rfl, _⟩ := hl.last
    simp
  rcases written_inStep hq l 0 hl hpos with
    ⟨e, _, _, hlist⟩ | ⟨b, c, hV, hc, hread, _, hlist⟩
  · rw [List.drop_zero, hp] at hlist
    cases hlist
  · rw [List.drop_zero, hp] at hlist
    rw [List.drop_zero] at hread
    cases hlist
    refine ⟨c, hread, hV.1, hV.2, ?_⟩
    rw [hread] at hl
    apply hl.suffix
    rw [← List.length_pos_iff, List.length_drop]
    omega

theorem Writes.passes {More : TokenType → Prop} (h : Writes Passes p V)
    (hmore : ∀ type, Passes type → More type) : Writes More p V :=
  h.mono fun _ _ hc => ⟨fun t ht => hmore _ (hc.1 t ht), hc.2⟩

theorem writes_pure (a : α) : Writes Passes (pure a) Anything := .pure a ⟨nofun, trivial⟩

theorem writes_done (s : σ) : Writes Passes (pure (ForInStep.done s)) Progress :=
  .pure _ ⟨nofun, trivial⟩

theorem writes_failure (what : String) : Writes Passes (throw (failure what)) V :=
  .throw ⟨_, rfl⟩

private theorem passes_append {c d : List Token} (hc : ∀ t ∈ c, Passes t.type)
    (hd : ∀ t ∈ d, Passes t.type) : ∀ t ∈ c ++ d, Passes t.type :=
  List.forall_mem_append.mpr ⟨hc, hd⟩

theorem writes_loop {body : σ → ConfigParser (ForInStep σ)} (s : σ)
    (h : ∀ s, Writes Passes (body s) Progress) :
    Writes Passes (ConfigParser.loop body s) Anything := by
  refine Writable.loop (J := fun _ c => ∀ t ∈ c, Passes t.type) ?_ nofun
  intro s
  apply (h s).mono
  rintro (s | s) d ⟨hd, hmoves⟩ c hc
  · exact ⟨passes_append hc hd, trivial⟩
  · exact ⟨hmoves, passes_append hc hd⟩

/-- What reads a token, in front of anything. -/
theorem Writes.moves_bind [Lenient W] {f : α → ConfigParser β} (hp : Writes Passes p Moves)
    (hf : ∀ a, Writes Passes (f a) Anything) : Writes Passes (p >>= f) W := by
  apply Writable.bind hp
  intro a _
  refine (hf a).mono fun b d hd c hc => ⟨passes_append hc.1 hd.1, ?_⟩
  exact Lenient.of_ne_nil b _ (List.append_ne_nil_of_left_ne_nil hc.2 d)

theorem Writes.anything_bind [Lenient W] {f : α → ConfigParser β}
    (hp : Writes Passes p Anything) (hf : ∀ a, Writes Passes (f a) W) :
    Writes Passes (p >>= f) W := by
  apply Writable.bind hp
  intro a _
  refine (hf a).mono fun b d hd c hc => ⟨passes_append hc.1 hd.1, ?_⟩
  cases c with
  | nil => exact hd.2
  | cons t c => exact Lenient.of_ne_nil b _ (List.cons_ne_nil _ _)

/-- What only looks. -/
theorem writes_look {q : Parser α} (h : TokenFunction α q p fun _ c => c = [])
    {f : α → ConfigParser β} (hf : ∀ a, Writes Passes (f a) W) : Writes Passes (p >>= f) W := by
  apply Writable.bind (.prim h)
  intro a _
  apply (hf a).mono
  rintro b d hd c rfl
  exact hd

theorem writes_check (type : TokenType) {f : Bool → ConfigParser β}
    (hf : ∀ a, Writes Passes (f a) W) : Writes Passes (ConfigParser.check type >>= f) W :=
  writes_look (.check type) hf

theorem writes_tokenPeek {f : Token → ConfigParser β} (hf : ∀ a, Writes Passes (f a) W) :
    Writes Passes (ConfigParser.tokenPeek >>= f) W :=
  writes_look .tokenPeek hf

theorem writes_tokenIsAtEnd {f : Bool → ConfigParser β} (hf : ∀ a, Writes Passes (f a) W) :
    Writes Passes (ConfigParser.tokenIsAtEnd >>= f) W :=
  writes_look .tokenIsAtEnd hf

theorem writes_tokenMatch [Lenient W] {type : TokenType} (htype : type ≠ .endOfFile)
    (hpass : Passes type) {f : Bool → ConfigParser β} (htrue : Writes Passes (f true) Anything)
    (hfalse : Writes Passes (f false) W) : Writes Passes (ConfigParser.tokenMatch type >>= f) W := by
  apply Writable.bind (.prim (.tokenMatch type htype))
  intro found _
  cases found with
  | true =>
      apply htrue.mono
      rintro b d hd c ⟨token, rfl, rfl⟩
      refine ⟨passes_append ?_ hd.1, Lenient.of_ne_nil b _ (by simp)⟩
      simpa using hpass
  | false =>
      apply hfalse.mono
      rintro b d hd c rfl
      exact hd

theorem writes_consume [Lenient W] {type : TokenType} (hpass : Passes type) (message : String)
    {f : Token → ConfigParser β} (hf : ∀ a, Writes Passes (f a) Anything) :
    Writes Passes (ConfigParser.consume type message >>= f) W := by
  refine Writes.moves_bind ((Writable.prim (.consume type message)).mono ?_) hf
  rintro token c ⟨rfl, rfl, _⟩
  exact ⟨by simpa using hpass, List.cons_ne_nil _ _⟩

/-- A directive has been read, or nothing. -/
def MovesIfSome (a : Option α) (c : List Token) : Prop := a.isSome → c ≠ []

instance : Lenient (MovesIfSome : Option α → List Token → Prop) := ⟨fun _ _ h _ => h⟩

theorem writes_directive [Lenient W] {p : ConfigParser (Option α)}
    (hp : Writes Passes p MovesIfSome) {f : Option α → ConfigParser β}
    (hsome : ∀ a, Writes Passes (f (some a)) Anything) (hnone : Writes Passes (f none) W) :
    Writes Passes (p >>= f) W := by
  apply Writable.bind hp
  intro a _
  cases a with
  | some a =>
      refine (hsome a).mono fun b d hd c hc => ⟨passes_append hc.1 hd.1, ?_⟩
      exact Lenient.of_ne_nil b _ (List.append_ne_nil_of_left_ne_nil (hc.2 rfl) d)
  | none =>
      refine hnone.mono fun b d hd c hc => ⟨passes_append hc.1 hd.1, ?_⟩
      cases c with
      | nil => exact hd.2
      | cons t c => exact Lenient.of_ne_nil b _ (List.cons_ne_nil _ _)

/-- A token that is looked at again with `previous`. -/
theorem writes_consumePrevious [Lenient W] {type : TokenType} (hpass : Passes type)
    (message : String) (f : Token → Token → ConfigParser β)
    (hf : ∀ a last, Writes Passes (f a last) Anything) :
    Writes Passes (ConfigParser.consume type message >>= fun token => f token token) W := by
  have htwice : (ConfigParser.consume type message >>= fun token => f token token) =
      (do
        let token ← ConfigParser.consume type message
        pure (token, token)) >>= fun tokens => f tokens.1 tokens.2 := by
    simp only [bind_assoc, pure_bind]
  rw [htwice]
  refine Writes.moves_bind ((Writable.prim (.consumePrevious type message)).mono ?_)
    fun tokens => hf tokens.1 tokens.2
  rintro tokens c ⟨rfl, rfl, _⟩
  exact ⟨by simpa using hpass, List.cons_ne_nil _ _⟩

theorem writes_statement (hpass : Passes .semicolon) (message : String)
    (hp : Writes Passes p Anything) : Writes Passes (statement message p) Moves :=
  hp.anything_bind fun a => writes_consume hpass message fun _ => writes_pure a

end Rules

/-- The tokens of a directive that is no `listen`. -/
def Inner (type : TokenType) : Prop := type ≠ .listen

/-- The tokens of any directive. -/
def AnyType (_ : TokenType) : Prop := True

theorem Writes.any {p : ConfigParser α} {V : α → List Token → Prop} {Passes : TokenType → Prop}
    (h : Writes Passes p V) : Writes AnyType p V := h.passes fun _ _ => trivial

instance (type : TokenType) : Decidable (Inner type) := inferInstanceAs (Decidable (_ ≠ _))

section Texts

theorem writes_indexStart : Writes Inner indexStart Moves := by
  apply writes_check .dot
  intro found
  split
  · apply writes_consume (by decide) _
    intro firstDot
    exact writes_consume (by decide) _ fun first => writes_pure _
  · exact writes_consume (by decide) _ fun first => writes_pure _

theorem writes_indexPart (s : Bytes × Int) : Writes Inner (indexPart s) Progress := by
  apply writes_check .dot
  intro found
  split
  · apply writes_tokenPeek
    intro dot
    split
    · exact writes_done s
    · apply writes_consume (by decide) _
      intro dot
      exact writes_consume (by decide) _ fun next => writes_pure _
  · exact writes_done s

theorem writes_indexName : Writes Inner indexName Moves := by
  apply writes_indexStart.moves_bind
  intro s
  exact (writes_loop s writes_indexPart).anything_bind fun s => writes_pure s.1

theorem writes_indexRound (names : List Bytes) : Writes Inner (indexRound names) Progress := by
  apply writes_check .semicolon
  intro found
  split
  · exact writes_done names
  · exact writes_indexName.moves_bind fun name => writes_pure _

theorem writes_parseIndex : Writes Inner parseIndex Moves :=
  writes_statement (by decide) _ (writes_loop [] writes_indexRound)

theorem writes_pathRound (temp : Bytes) {parts : List (TokenType × String)}
    (hparts : ∀ part ∈ parts, Inner part.1) :
    Writes Inner (pathRound temp parts) Progress := by
  induction parts with
  | nil => exact writes_done temp
  | cons part parts ih =>
      apply writes_check part.1
      intro found
      split
      · exact writes_consume (hparts _ List.mem_cons_self) _ fun token => writes_pure _
      · exact ih fun other hother => hparts other (List.mem_cons_of_mem _ hother)

theorem writes_parsePath : Writes Inner parsePath Anything :=
  writes_loop [] fun temp => writes_pathRound temp (by decide)

theorem writes_serverNamePart (temp : Bytes) : Writes Inner (serverNamePart temp) Progress := by
  apply writes_check .dot
  intro found
  split
  · apply writes_consume (by decide) _
    intro dot
    exact writes_consume (by decide) _ fun token => writes_pure _
  · exact writes_done temp

theorem writes_serverNameRound (s : List Bytes × Bool) :
    Writes Inner (serverNameRound s) Progress := by
  apply writes_check .identifier
  intro found
  split
  · apply writes_consume (by decide) _
    intro token
    exact (writes_loop _ writes_serverNamePart).anything_bind fun name => writes_pure _
  · exact writes_done s

theorem writes_parseServerName (names : List Bytes) : Writes Inner (parseServerName names) Moves := by
  refine writes_statement (by decide) _ ((writes_loop _ writes_serverNameRound).anything_bind ?_)
  rintro ⟨names, found⟩
  cases found with
  | true => exact writes_pure names
  | false => exact writes_failure _

end Texts

section Values

/-- What fails only with an error of the class. -/
def Reports (x : Except ParserError α) : Prop := ∀ e, x = .error e → Reported e

theorem reports_ok (a : α) : Reports (.ok a) := nofun

theorem reports_error (what : Bytes) : Reports (.error (.runtimeError what) : Except _ α) := by
  rintro e ⟨⟩
  exact ⟨what, rfl⟩

theorem Reports.ite {c : Prop} [Decidable c] {x y : Except ParserError α} (hx : Reports x)
    (hy : Reports y) : Reports (if c then x else y) := by
  split
  · exact hx
  · exact hy

theorem reports_addressLoop (temp : Bytes) (i dotCount lastDot : Nat) (rest : Bytes) :
    Reports (addressLoop temp i dotCount lastDot rest) := by
  induction rest generalizing i dotCount lastDot with
  | nil => exact reports_ok _
  | cons c rest ih =>
      refine (reports_error _).ite (Reports.ite ?_ (ih _ _ _))
      exact (reports_error _).ite ((reports_error _).ite (ih _ _ _))

theorem reports_checkAddress (temp : Bytes) : Reports (checkAddress temp) := by
  unfold checkAddress
  cases hloop : addressLoop temp 0 0 0 temp with
  | error e =>
      rintro e' ⟨⟩
      exact reports_addressLoop _ _ _ _ _ e hloop
  | ok x => exact (reports_error _).ite ((reports_error _).ite (reports_ok _))

theorem reports_convertPort (port : Bytes) : Reports (convertPort port) :=
  (reports_ok _).ite ((reports_error _).ite ((reports_error _).ite (reports_ok _)))

theorem reports_checkDuplicateListen (entries : List Listen) (entry : Listen) :
    Reports (checkDuplicateListen entries entry) :=
  (reports_error _).ite (reports_ok _)

theorem reports_checkNumber (text : Bytes) : Reports (checkNumber text) :=
  (reports_error _).ite ((reports_error _).ite (reports_ok _))

theorem reports_bodySize (number : Bytes) : Reports (bodySize number) := by
  unfold bodySize
  split
  · exact reports_ok _
  · exact (reports_ok _).ite ((reports_ok _).ite ((reports_ok _).ite (reports_error _)))

theorem reports_timeoutValue (temp : Bytes) : Reports (timeoutValue temp) :=
  (reports_error _).ite ((reports_error _).ite ((reports_error _).ite (reports_ok _)))

theorem reports_errorPages (path : Bytes) (codes : List Bytes) (map : List (Nat × Bytes)) :
    Reports (errorPages path codes map) := by
  induction codes generalizing map with
  | nil => exact reports_ok _
  | cons code codes ih => exact (reports_error _).ite (ih _)

theorem reports_checkForEmpty (config : Config) : Reports (checkForEmpty config) :=
  (reports_error _).ite (reports_ok _)

theorem writes_lift {Passes : TokenType → Prop} {x : Except ParserError α} (h : Reports x) :
    Writes Passes (TokenParser.lift x) Anything :=
  .lift h fun _ _ => ⟨nofun, trivial⟩

end Values

section Directives

theorem writes_portOf (temp : Bytes) : Writes Inner (portOf temp) Anything := by
  apply writes_check .colon
  intro found
  split
  · exact (writes_lift (reports_checkAddress temp)).anything_bind fun _ => writes_pure _
  · exact writes_pure temp

theorem writes_portBehindColon (port : Bytes) : Writes Inner (portBehindColon port) Anything := by
  apply writes_check .colon
  intro found
  split
  · apply writes_consume (by decide) _
    intro colon
    exact writes_consume (by decide) _ fun token => writes_pure _
  · exact writes_pure port

theorem writes_listenRound (entries : List Listen) : Writes Inner (listenRound entries) Progress := by
  apply writes_check .identifier
  intro found
  split
  · apply writes_consume (by decide) _
    intro token
    apply (writes_portOf _).anything_bind
    intro port
    apply (writes_portBehindColon port).anything_bind
    intro port
    apply (writes_lift (reports_convertPort port)).anything_bind
    intro convertedPort
    exact (writes_lift (reports_checkDuplicateListen _ _)).anything_bind fun _ => writes_pure _
  · exact writes_done entries

theorem writes_parseListen (entries : List Listen) : Writes Inner (parseListen entries) Moves :=
  writes_statement (by decide) _ (writes_loop _ writes_listenRound)

theorem writes_methodsRound (methods : Methods) : Writes Inner (methodsRound methods) Progress := by
  apply writes_check .semicolon
  intro found
  split
  · exact writes_done methods
  refine writes_tokenMatch (by decide) (by decide) (writes_pure _) ?_
  refine writes_tokenMatch (by decide) (by decide) (writes_pure _) ?_
  exact writes_tokenMatch (by decide) (by decide) (writes_pure _) (writes_failure _)

theorem writes_parseMethods : Writes Inner parseMethods Moves :=
  writes_statement (by decide) _ (writes_loop _ writes_methodsRound)

theorem writes_parseAutoIndex : Writes Inner parseAutoIndex Moves := by
  refine writes_statement (by decide) _ (writes_tokenMatch (by decide) (by decide) (writes_pure _) ?_)
  apply writes_check .off
  intro found
  split
  · exact writes_consume (by decide) _ fun _ => writes_pure _
  · exact writes_failure _

theorem writes_chunkedOption : Writes Inner chunkedOption Anything := by
  apply writes_tokenPeek
  intro token
  split
  · exact writes_consume (by decide) _ fun _ => writes_pure _
  · split
    · exact writes_consume (by decide) _ fun _ => writes_pure _
    · exact writes_failure _

theorem writes_parseNumber : Writes Inner parseNumber Anything :=
  writes_consume (by decide) _ fun token => writes_lift (reports_checkNumber token.lexeme)

theorem writes_parseMaxClientBody : Writes Inner parseMaxClientBody Anything :=
  writes_consume (by decide) _ fun token => writes_lift (reports_bodySize token.lexeme)

theorem writes_parseTimeout : Writes Inner parseTimeout Anything :=
  writes_consume (by decide) _ fun token => writes_lift (reports_timeoutValue token.lexeme)

/-- What `errorCodeRound` does behind its identifier; `last` is `previous`. -/
private def codeRest (s : List Bytes × Bytes) (token last : Token) :
    ConfigParser (ForInStep (List Bytes × Bytes)) := do
  let next ← ConfigParser.tokenPeek
  if !isSpaceBetween last next then pure (.done (s.1, token.lexeme))
  else if hasNonDigit token.lexeme then pure (.done (s.1, token.lexeme))
  else pure (.yield (s.1 ++ [token.lexeme], []))

theorem writes_errorCodeRound (s : List Bytes × Bytes) : Writes Inner (errorCodeRound s) Progress := by
  apply writes_check .identifier
  intro found
  split
  · apply writes_consumePrevious (by decide) _ (codeRest s)
    intro token last
    apply writes_tokenPeek
    intro next
    split
    · exact writes_pure _
    · split
      · exact writes_pure _
      · exact writes_pure _
  · exact writes_done s

theorem writes_parseErrorPage : Writes Inner parseErrorPage Moves := by
  refine writes_statement (by decide) _ ((writes_loop _ writes_errorCodeRound).anything_bind fun s => ?_)
  exact writes_parsePath.anything_bind fun path => writes_lift (reports_errorPages _ _ _)

theorem writes_returnCodeOf (nonDigit : Bool) (code : Int) :
    Writes Inner (returnCodeOf nonDigit code) Anything := by
  unfold returnCodeOf
  split
  · exact writes_pure code
  · exact writes_consume (by decide) _ fun token => writes_pure _

theorem writes_returnPathOf (nonDigit : Bool) (path : Bytes) :
    Writes Inner (returnPathOf nonDigit path) Anything := by
  unfold returnPathOf
  split
  · exact writes_parsePath
  · apply writes_check .semicolon
    intro found
    split
    · exact writes_pure path
    · exact writes_parsePath

theorem writes_parseReturn (path : Bytes) (code : Int) :
    Writes Inner (parseReturn path code) Moves := by
  refine writes_statement (by decide) _ (writes_tokenPeek fun token => ?_)
  apply (writes_returnCodeOf _ _).anything_bind
  intro code
  exact (writes_returnPathOf _ _).anything_bind fun path => writes_pure _

theorem writes_cgiEntry : Writes Inner cgiEntry Anything := by
  apply writes_consume (by decide) _
  intro _
  apply writes_consume (by decide) _
  intro token
  exact writes_parsePath.anything_bind fun path => writes_pure _

theorem writes_commonDirective (common : CommonConfig) :
    Writes Inner (commonDirective common) MovesIfSome := by
  refine writes_tokenMatch (by decide) (by decide) ?_ (writes_tokenMatch (by decide) (by decide) ?_
    (writes_tokenMatch (by decide) (by decide) ?_ (writes_tokenMatch (by decide) (by decide) ?_
    (writes_tokenMatch (by decide) (by decide) ?_ (writes_tokenMatch (by decide) (by decide) ?_
    (writes_tokenMatch (by decide) (by decide) ?_ (writes_tokenMatch (by decide) (by decide) ?_ ?_)))))))
  · exact (writes_statement (by decide) _ writes_parsePath).moves_bind fun root => writes_pure _
  · exact writes_parseIndex.moves_bind fun names => writes_pure _
  · exact writes_parseMethods.moves_bind fun methods => writes_pure _
  · exact writes_parseAutoIndex.moves_bind fun autoIndex => writes_pure _
  · exact writes_parseErrorPage.moves_bind fun pages => writes_pure _
  · exact (writes_parseReturn _ _).moves_bind fun x => writes_pure _
  · exact (writes_statement (by decide) _ writes_cgiEntry).moves_bind fun x => writes_pure _
  · exact (writes_statement (by decide) _ writes_parseMaxClientBody).moves_bind fun size => writes_pure _
  · exact .pure none ⟨nofun, nofun⟩

end Directives

section Blocks

theorem writes_locationRound (location : Location) : Writes Inner (locationRound location) Progress := by
  apply writes_check .rightBrace
  intro found
  split
  · exact writes_done location
  refine writes_directive (writes_commonDirective _) (fun common => writes_pure _) ?_
  refine writes_tokenMatch (by decide) (by decide) ?_ (writes_tokenMatch (by decide) (by decide) ?_
    (writes_tokenMatch (by decide) (by decide) ?_ (writes_tokenPeek fun token => .throw ⟨_, rfl⟩)))
  · exact (writes_statement (by decide) _ writes_chunkedOption).moves_bind fun option => writes_pure _
  · exact (writes_statement (by decide) _ writes_parseNumber).moves_bind fun threshold => writes_pure _
  · exact (writes_statement (by decide) _ writes_parseNumber).moves_bind fun size => writes_pure _

theorem writes_parseLocation (server : CommonConfig) : Writes Inner (parseLocation server) Anything := by
  apply writes_parsePath.anything_bind
  intro path
  split
  · exact writes_failure _
  · apply writes_consume (by decide) _
    intro _
    apply (writes_loop _ writes_locationRound).anything_bind
    intro location
    exact writes_consume (by decide) _ fun _ => writes_pure location

theorem writes_serverDirective (temp : Config) : Writes AnyType (serverDirective temp) Moves := by
  refine writes_directive (writes_commonDirective _).any (fun common => writes_pure _) ?_
  refine writes_tokenMatch (by decide) trivial ?_ (writes_tokenMatch (by decide) trivial ?_
    (writes_tokenMatch (by decide) trivial ?_ (writes_tokenMatch (by decide) trivial ?_
    (writes_tokenPeek fun token => .throw ⟨_, rfl⟩))))
  · exact (writes_parseListen _).any.moves_bind fun entries => writes_pure _
  · exact (writes_parseServerName _).any.moves_bind fun names => writes_pure _
  · exact (writes_parseLocation _).any.anything_bind fun location => writes_pure _
  · refine Writes.moves_bind ?_ fun timeout => writes_pure _
    exact (writes_statement (by decide) _ writes_parseTimeout).any

theorem writes_serverRound (temp : Config) : Writes AnyType (serverRound temp) Progress := by
  apply writes_check .rightBrace
  intro found
  split
  · exact writes_done temp
  apply writes_tokenIsAtEnd
  intro found
  split
  · exact writes_done temp
  · exact (writes_serverDirective temp).moves_bind fun temp => writes_pure _

theorem writes_serverBlock (temp : Config) : Writes AnyType (serverBlock temp) Anything := by
  apply writes_consume trivial _
  intro _
  apply (writes_loop _ writes_serverRound).anything_bind
  intro temp
  exact writes_consume trivial _ fun _ => writes_lift (reports_checkForEmpty temp)

theorem writes_configRound (s : Config × List Config) :
    Writes AnyType (configRound s) Progress := by
  apply writes_tokenIsAtEnd
  intro found
  split
  · exact writes_done s
  refine writes_tokenMatch (by decide) trivial ?_ (writes_tokenPeek fun token => .throw ⟨_, rfl⟩)
  exact (writes_serverBlock s.1).anything_bind fun temp => writes_pure _

theorem writes_parseConfig : Writes AnyType parseConfig Anything :=
  writes_loop _ writes_configRound

end Blocks

end ConfigTokens

end FortyTwo.Webserv
