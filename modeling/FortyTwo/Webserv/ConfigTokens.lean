import FortyTwo.Foundation.IndexParser
import FortyTwo.Webserv.ConfigReading

/-!
The token functions of `Parser.cpp` over `_tokens` and `_currentToken`, and what they
do at an index inside the tokens.
-/

namespace FortyTwo.Webserv

open Foundation

namespace ConfigTokens

open ConfigParser (integer isSpaceBetween)
open IndexParser (InStep)

abbrev Parser (α : Type) := IndexParser Token ParserError α

section Functions

/-- `_tokens.at`. An index in front of the first token is no better than one behind
the last. -/
def tokenAt (index : Int) : Parser Token := fun tokens currentToken =>
  if index < 0 then .error .outOfRange
  else
    match tokens[index.toNat]? with
    | some token => .ok (token, currentToken)
    | none => .error .outOfRange

def tokenPeek : Parser Token := do
  let currentToken ← get
  tokenAt currentToken

def tokenIsAtEnd : Parser Bool := do
  let token ← tokenPeek
  pure (token.type == .endOfFile)

def previous : Parser Token := do
  let currentToken : Nat ← get
  tokenAt ((currentToken : Int) - 1)

def tokenAdvance : Parser Token := do
  if !(← tokenIsAtEnd) then
    modify (· + 1)
  previous

def check (type : TokenType) : Parser Bool := do
  if ← tokenIsAtEnd then pure false
  else
    let token ← tokenPeek
    pure (token.type == type)

/-- `match`. -/
def tokenMatch (type : TokenType) : Parser Bool := do
  let token ← tokenPeek
  if token.type = type then
    let _ ← tokenAdvance
    pure true
  else pure false

def consume (type : TokenType) (message : String) : Parser Token := do
  if ← check type then tokenAdvance
  else
    let token ← tokenPeek
    throw (.runtimeError (bytes "Parse error at line " ++ integer token.line ++ bytes ": " ++
      bytes message ++ bytes " got '" ++ token.lexeme ++ bytes "' instead\n"))

end Functions

/-- A token list as the scanner makes it: `END_OF_FILE` is its last token and no other,
and every other token has a text. -/
structure Scanned (tokens : List Token) : Prop where
  last : ∃ front token, tokens = front ++ [token] ∧ token.type = .endOfFile
  inner : ∀ i token, tokens[i]? = some token → token.type ≠ .endOfFile → i + 1 < tokens.length
  lexeme : ∀ token ∈ tokens, token.type ≠ .endOfFile → token.lexeme ≠ []

theorem Scanned.suffix {c m : List Token} (h : Scanned (c ++ m)) (hm : m ≠ []) : Scanned m := by
  obtain ⟨front, token, heq, htype⟩ := h.last
  refine ⟨?_, ?_, fun t ht => h.lexeme t (List.mem_append_right c ht)⟩
  · obtain ⟨init, last, rfl⟩ := (List.eq_nil_or_concat m).resolve_left hm
    rw [List.concat_eq_append, ← List.append_assoc] at heq
    obtain ⟨_, hlast⟩ := List.append_inj' heq rfl
    rw [List.singleton_inj.mp hlast]
    exact ⟨init, token, List.concat_eq_append, htype⟩
  · intro i t ht htype
    have hlt := h.inner (c.length + i) t (by
      rw [List.getElem?_append_right (by omega)]
      simpa using ht) htype
    rw [List.length_append] at hlt
    omega

/-- What stands behind a token that is not the last. -/
theorem Scanned.tail {token : Token} {rest : List Token} (h : Scanned (token :: rest))
    (htype : token.type ≠ .endOfFile) : Scanned rest := by
  have hlt := h.inner 0 token rfl htype
  exact h.suffix (c := [token]) (List.ne_nil_of_length_pos (by simpa using hlt))

/-- An error that the class reports itself. -/
def Reported (e : ParserError) : Prop := ∃ what, e = .runtimeError what

section AtIndex

variable {tokens : List Token} {i : Nat} {token : Token}

theorem tokenPeek_eq (h : tokens[i]? = some token) : tokenPeek tokens i = .ok (token, i) := by
  change tokenAt (i : Int) tokens i = _
  rw [tokenAt, if_neg (by omega), Int.toNat_natCast, h]

theorem tokenIsAtEnd_eq (h : tokens[i]? = some token) :
    tokenIsAtEnd tokens i = .ok (token.type == .endOfFile, i) := by
  change (tokenPeek tokens i >>= _) = _
  rw [tokenPeek_eq h]
  rfl

theorem check_eq (h : tokens[i]? = some token) (type : TokenType) :
    check type tokens i = .ok (token.type != .endOfFile && token.type == type, i) := by
  change (tokenIsAtEnd tokens i >>= _) = _
  rw [tokenIsAtEnd_eq h]
  by_cases hend : token.type = .endOfFile
  · simp only [hend, bne_self_eq_false, Bool.false_and]
    rfl
  · have hfalse : (token.type == TokenType.endOfFile) = false := beq_eq_false_iff_ne.mpr hend
    change (if (token.type == TokenType.endOfFile) = true then _ else _ : Parser Bool) tokens i = _
    rw [hfalse, bne, hfalse]
    change (tokenPeek tokens i >>= _) = _
    rw [tokenPeek_eq h]
    rfl

theorem previous_eq (h : tokens[i]? = some token) :
    previous tokens (i + 1) = .ok (token, i + 1) := by
  change tokenAt (((i + 1 : Nat) : Int) - 1) tokens (i + 1) = _
  rw [tokenAt, if_neg (by omega), show (((i + 1 : Nat) : Int) - 1).toNat = i by omega, h]

theorem tokenAdvance_eq (h : tokens[i]? = some token) (hend : token.type ≠ .endOfFile) :
    tokenAdvance tokens i = .ok (token, i + 1) := by
  have hfalse : (token.type == TokenType.endOfFile) = false := beq_eq_false_iff_ne.mpr hend
  change (tokenIsAtEnd tokens i >>= _) = _
  rw [tokenIsAtEnd_eq h, hfalse]
  exact previous_eq h

theorem tokenMatch_eq (h : tokens[i]? = some token) {type : TokenType}
    (htype : type ≠ .endOfFile) : tokenMatch type tokens i =
      .ok (decide (token.type = type), if token.type = type then i + 1 else i) := by
  change (tokenPeek tokens i >>= _) = _
  rw [tokenPeek_eq h]
  by_cases heq : token.type = type
  · change (if token.type = type then _ else _ : Parser Bool) tokens i = _
    rw [if_pos heq, if_pos heq]
    change (tokenAdvance tokens i >>= _) = _
    rw [tokenAdvance_eq h (heq ▸ htype), decide_eq_true heq]
    rfl
  · change (if token.type = type then _ else _ : Parser Bool) tokens i = _
    rw [if_neg heq, if_neg heq, decide_eq_false heq]
    rfl

/-- The error of `consume`. -/
def unexpected (message : String) (token : Token) : ParserError :=
  .runtimeError (bytes "Parse error at line " ++ integer token.line ++ bytes ": " ++
    bytes message ++ bytes " got '" ++ token.lexeme ++ bytes "' instead\n")

theorem consume_eq (h : tokens[i]? = some token) (type : TokenType) (message : String) :
    consume type message tokens i =
      if token.type ≠ .endOfFile ∧ token.type = type then .ok (token, i + 1)
      else .error (unexpected message token) := by
  change (check type tokens i >>= _) = _
  rw [check_eq h]
  by_cases hmatch : token.type ≠ .endOfFile ∧ token.type = type
  · have htrue : (token.type != TokenType.endOfFile && token.type == type) = true := by
      simpa using hmatch
    rw [htrue, if_pos hmatch]
    exact tokenAdvance_eq h hmatch.1
  · have hfalse : (token.type != TokenType.endOfFile && token.type == type) = false := by
      simpa using hmatch
    rw [hfalse, if_neg hmatch]
    change (tokenPeek tokens i >>= _) = _
    rw [tokenPeek_eq h]
    rfl

end AtIndex

theorem exists_token {tokens : List Token} {i : Nat} (hi : i < tokens.length) :
    ∃ token, tokens[i]? = some token ∧ tokens.drop i = token :: tokens.drop (i + 1) :=
  ⟨tokens[i], List.getElem?_eq_getElem hi, List.drop_eq_getElem_cons hi⟩

/-- The other case of `ConfigParser.consume_cons`. -/
theorem consume_of_ne {type : TokenType} (message : String) {token : Token} (rest : List Token)
    (h : ¬(token.type ≠ .endOfFile ∧ token.type = type)) :
    ConfigParser.consume type message (token :: rest) = .error (unexpected message token) := by
  have hfalse : (token.type != TokenType.endOfFile && token.type == type) = false := by
    simpa using h
  rw [ConfigParser.consume, TokenParser.bind_of_ok _ (ConfigParser.check_cons type token rest),
    hfalse]
  rfl

/-- The token functions and their counterparts, with what is known of what they return
and of the tokens they pass. `previous` is used behind `consume` only. -/
inductive TokenFunction : ∀ α : Type, Parser α → ConfigParser α → (α → List Token → Prop) → Prop
  | tokenPeek : TokenFunction Token tokenPeek ConfigParser.tokenPeek fun _ c => c = []
  | tokenIsAtEnd : TokenFunction Bool tokenIsAtEnd ConfigParser.tokenIsAtEnd fun _ c => c = []
  | check (type : TokenType) :
      TokenFunction Bool (check type) (ConfigParser.check type) fun _ c => c = []
  | tokenMatch (type : TokenType) (h : type ≠ .endOfFile) :
      TokenFunction Bool (tokenMatch type) (ConfigParser.tokenMatch type) fun found c =>
        if found then ∃ token, c = [token] ∧ token.type = type else c = []
  | consume (type : TokenType) (message : String) :
      TokenFunction Token (consume type message) (ConfigParser.consume type message) fun token c =>
        c = [token] ∧ token.type = type ∧ token.lexeme ≠ []
  | consumePrevious (type : TokenType) (message : String) :
      TokenFunction (Token × Token)
        (do
          let token ← consume type message
          let last ← previous
          pure (token, last))
        (do
          let token ← ConfigParser.consume type message
          pure (token, token))
        fun tokens c => c = [tokens.1] ∧ tokens.1.type = type ∧ tokens.1 = tokens.2

theorem consume_inStep (type : TokenType) (message : String) :
    InStep Scanned Reported (consume type message) (ConfigParser.consume type message)
      fun token c => c = [token] ∧ token.type = type ∧ token.lexeme ≠ [] := by
  intro tokens i htokens hi
  obtain ⟨token, htoken, hdrop⟩ := exists_token hi
  rw [consume_eq htoken, hdrop]
  by_cases hmatch : token.type ≠ .endOfFile ∧ token.type = type
  · have htype : type ≠ .endOfFile := hmatch.2 ▸ hmatch.1
    rw [if_pos hmatch, ConfigParser.consume_cons htype message _ hmatch.2]
    have hlexeme := htokens.lexeme token (List.mem_of_getElem? htoken) hmatch.1
    exact Or.inr ⟨token, [token], ⟨rfl, hmatch.2, hlexeme⟩, htokens.inner i token htoken hmatch.1,
      rfl, rfl, rfl⟩
  · rw [if_neg hmatch, consume_of_ne message _ hmatch]
    exact Or.inl ⟨_, ⟨_, rfl⟩, rfl, rfl⟩

/-- Inside the tokens, the token functions do as their counterparts, and leave the
index inside. -/
theorem TokenFunction.inStep {α : Type} {q : Parser α} {p : ConfigParser α}
    {V : α → List Token → Prop} (h : TokenFunction α q p V) : InStep Scanned Reported q p V := by
  intro tokens i htokens hi
  obtain ⟨token, htoken, hdrop⟩ := exists_token hi
  cases h with
  | tokenPeek =>
      exact Or.inr ⟨token, [], rfl, hi, rfl, tokenPeek_eq htoken, by
        rw [hdrop, ConfigParser.tokenPeek_cons, ← hdrop]
        rfl⟩
  | tokenIsAtEnd =>
      exact Or.inr ⟨_, [], rfl, hi, rfl, tokenIsAtEnd_eq htoken, by
        rw [hdrop, ConfigParser.tokenIsAtEnd_cons, ← hdrop]
        rfl⟩
  | check type =>
      exact Or.inr ⟨_, [], rfl, hi, rfl, check_eq htoken type, by
        rw [hdrop, ConfigParser.check_cons, ← hdrop]
        rfl⟩
  | tokenMatch type htype =>
      rw [tokenMatch_eq htoken htype, hdrop, ConfigParser.tokenMatch_cons htype]
      by_cases heq : token.type = type
      · rw [if_pos heq, if_pos heq]
        exact Or.inr ⟨_, [token], by simp [heq], htokens.inner i token htoken (heq ▸ htype), rfl, rfl,
          rfl⟩
      · rw [if_neg heq, if_neg heq]
        exact Or.inr ⟨_, [], by simp [heq], hi, hdrop.symm, rfl, by rw [← hdrop]; rfl⟩
  | consume type message => exact consume_inStep type message tokens i htokens hi
  | consumePrevious type message =>
      by_cases hmatch : token.type ≠ .endOfFile ∧ token.type = type
      · have htype : type ≠ .endOfFile := hmatch.2 ▸ hmatch.1
        refine Or.inr ⟨(token, token), [token], ⟨rfl, hmatch.2, rfl⟩,
          htokens.inner i token htoken hmatch.1, hdrop, ?_, ?_⟩
        · change (ConfigTokens.consume type message tokens i >>= _) = _
          rw [consume_eq htoken, if_pos hmatch]
          change (ConfigTokens.previous tokens (i + 1) >>= _) = _
          rw [previous_eq htoken]
          rfl
        · rw [hdrop]
          exact TokenParser.bind_of_ok _ (ConfigParser.consume_cons htype message _ hmatch.2)
      · refine Or.inl ⟨unexpected message token, ⟨_, rfl⟩, ?_, ?_⟩
        · change (ConfigTokens.consume type message tokens i >>= _) = _
          rw [consume_eq htoken, if_neg hmatch]
          rfl
        · rw [hdrop]
          change (ConfigParser.consume type message (token :: tokens.drop (i + 1))).bind _ = _
          rw [consume_of_ne message _ hmatch]
          rfl

/-- Inside the tokens, what is written over the token functions does what its
counterpart does. -/
theorem written_inStep {α : Type} {q : Parser α} {p : ConfigParser α}
    {V : α → List Token → Prop} {e : ParserError}
    (h : IndexParser.Written TokenFunction Reported e q p V) :
    InStep Scanned Reported q p V :=
  h.inStep fun _ _ _ _ => TokenFunction.inStep

end ConfigTokens

end FortyTwo.Webserv
