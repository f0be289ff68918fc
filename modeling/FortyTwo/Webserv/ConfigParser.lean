import FortyTwo.Foundation.TokenParser
import FortyTwo.Webserv.ConfigScanner

/-!
`Parser.cpp`: the parser of the configuration file. The state of a parser is the
list of the tokens from `_currentToken` on, and `tempConfig` is passed along.
-/

namespace FortyTwo.Webserv

open Foundation TokenParser

/-- `std::runtime_error` with its text, and what indexing outside of the tokens
throws. -/
inductive ParserError where
  | runtimeError (what : Bytes)
  | outOfRange
  | outOfFuel
  deriving DecidableEq, Repr

abbrev ConfigParser (α : Type) := TokenParser Token ParserError α

namespace ConfigParser

def failure (what : String) : ParserError := .runtimeError (bytes what)

section Numbers

/-- The number that the leading digits of the text make. -/
def leadingNumber (text : Bytes) : Nat :=
  (text.takeWhile isDigit).foldl (fun n c => n * 10 + (c.toNat - 48)) 0

/-- `isspace`. -/
def isSpace (c : UInt8) : Bool := c == 32 || (decide (9 ≤ c) && decide (c ≤ 13))

/-- `atol`: the nearest of the 64-bit integers. -/
def atol (text : Bytes) : Int :=
  match text.dropWhile isSpace with
  | 45 :: digits => max (-(2 ^ 63)) (-(leadingNumber digits : Int))
  | 43 :: digits => min (2 ^ 63 - 1) (leadingNumber digits : Int)
  | digits => min (2 ^ 63 - 1) (leadingNumber digits : Int)

/-- A `long` as an `int`. -/
def toInt (n : Int) : Int := (n + 2 ^ 31) % 2 ^ 32 - 2 ^ 31

def atoi (text : Bytes) : Int := toInt (atol text)

/-- A `long` as a `size_t`. -/
def toSize (n : Int) : Nat := (n % 2 ^ 64).toNat

/-- An integer as a stream writes it. -/
def integer (n : Int) : Bytes := bytes (toString n)

/-- What the loops over a text find in `nonDigit`. -/
def hasNonDigit (text : Bytes) : Bool := text.any (fun c => !isDigit c)

end Numbers

section Map

variable {κ α : Type} [DecidableEq κ] [LT κ] [DecidableLT κ]

/-- `std::map::insert`: the entry of a key that is there stays. -/
def mapInsert (key : κ) (value : α) : List (κ × α) → List (κ × α)
  | [] => [(key, value)]
  | entry :: rest =>
      if key = entry.1 then entry :: rest
      else if key < entry.1 then (key, value) :: entry :: rest
      else entry :: mapInsert key value rest

/-- `map.insert(entries.begin(), entries.end())`. -/
def mapInsertAll (map entries : List (κ × α)) : List (κ × α) :=
  entries.foldl (fun map entry => mapInsert entry.1 entry.2 map) map

end Map

section Tokens

def tokenPeek : ConfigParser Token := fun tokens =>
  match tokens with
  | [] => .error .outOfRange
  | token :: _ => .ok (token, tokens)

def tokenIsAtEnd : ConfigParser Bool := do
  let token ← tokenPeek
  pure (token.type == .endOfFile)

/-- `tokenAdvance` with the token it has passed. Its callers have seen that it
is not `END_OF_FILE`. -/
def tokenAdvance : ConfigParser Token := fun tokens =>
  match tokens with
  | [] => .error .outOfRange
  | token :: rest => .ok (token, if token.type = .endOfFile then tokens else rest)

def check (type : TokenType) : ConfigParser Bool := do
  let token ← tokenPeek
  pure (token.type != .endOfFile && token.type == type)

/-- `match`. -/
def tokenMatch (type : TokenType) : ConfigParser Bool := do
  let token ← tokenPeek
  if token.type = type then
    let _ ← tokenAdvance
    pure true
  else pure false

def consume (type : TokenType) (message : String) : ConfigParser Token := do
  if ← check type then tokenAdvance
  else
    let token ← tokenPeek
    throw (.runtimeError (bytes "Parse error at line " ++ integer token.line ++ bytes ": " ++
      bytes message ++ bytes " got '" ++ token.lexeme ++ bytes "' instead\n"))

/-- A loop of the parser. -/
def loop {σ : Type} (body : σ → ConfigParser (ForInStep σ)) (s : σ) : ConfigParser σ :=
  TokenParser.loop .outOfFuel body s

end Tokens

/-- Whether there is exactly one character between the two tokens. -/
def isSpaceBetween (curr next : Token) : Bool :=
  decide ((curr.lexeme.length : Int) + curr.column + 1 = next.column)

/-- The column behind a token. -/
def tokenEnd (token : Token) : Int := token.column + token.lexeme.length

def endOfStatement : String := "expected ';' after the statement"

/-- What stands in front of a semicolon. -/
def statement {α : Type} (message : String) (value : ConfigParser α) : ConfigParser α := do
  let a ← value
  let _ ← consume .semicolon message
  pure a

section Listen

def ipFormat : ParserError :=
  failure "Incorrect IP format, correct format is: [0-255].[0-255].[0-255].[0-255]"

def isOctet (text : Bytes) : Bool := decide (0 ≤ atoi text) && decide (atoi text ≤ 255)

/-- The loop over the characters of the address, from index `i` on: the number
of dots and the index behind the last one. -/
def addressLoop (temp : Bytes) : Nat → Nat → Nat → Bytes → Except ParserError (Nat × Nat)
  | _, dotCount, lastDot, [] => .ok (dotCount, lastDot)
  | i, dotCount, lastDot, c :: rest =>
      if !isDigit c && c != byteOf '.' then .error (failure "Not a number")
      else if c = byteOf '.' then
        if dotCount > 4 then .error ipFormat
        -- the branch for a `dotCount` of 0 comes after the increment
        else if !isOctet ((temp.drop lastDot).take (i - lastDot)) then .error ipFormat
        else addressLoop temp (i + 1) (dotCount + 1) (i + 1) rest
      else addressLoop temp (i + 1) dotCount lastDot rest

def checkAddress (temp : Bytes) : Except ParserError Unit := do
  let (dotCount, lastDot) ← addressLoop temp 0 0 0 temp
  if dotCount ≠ 3 then .error ipFormat
  else if !isOctet (temp.drop lastDot) then .error ipFormat
  else .ok ()

def convertPort (port : Bytes) : Except ParserError Int :=
  if port = [] then .ok (-1)
  else if hasNonDigit port then .error (failure "Not a number in port")
  else if atoi port < 0 ∨ 65535 < atoi port then
    .error (failure "Port should be in range of 0 to 65535")
  else .ok (atoi port)

def replaceLocalhost (temp : Bytes) : Bytes :=
  match find (bytes "localhost") temp with
  | some position => temp.take position ++ bytes "127.0.0.1" ++ temp.drop (position + 9)
  | none => temp

def listenName (listen : Listen) : Bytes := listen.host ++ bytes ":" ++ integer listen.port

def checkDuplicateListen (entries : List Listen) (entry : Listen) : Except ParserError Unit :=
  if entries.any (fun other => listenName other == listenName entry) then
    .error (failure "Duplicate listen in the same server block")
  else .ok ()

/-- The `port` of an entry that is not followed by one. -/
def portOf (temp : Bytes) : ConfigParser Bytes := do
  if temp.contains (byteOf '.') || (← check .colon) then
    lift (checkAddress temp)
    pure []
  else pure temp

/-- The `port` behind a colon, if there is one. -/
def portBehindColon (port : Bytes) : ConfigParser Bytes := do
  if ← check .colon then
    let _ ← consume .colon ""
    let token ← consume .identifier "expected port after colon"
    pure token.lexeme
  else pure port

def listenRound (entries : List Listen) : ConfigParser (ForInStep (List Listen)) := do
  if ← check .identifier then
    let token ← consume .identifier "expected format: address[:port]"
    let temp := replaceLocalhost token.lexeme
    let port ← portOf temp
    let port ← portBehindColon port
    let convertedPort ← lift (convertPort port)
    let entry : Listen := ⟨if temp = port then bytes "0.0.0.0" else temp, convertedPort⟩
    lift (checkDuplicateListen entries entry)
    pure (.yield (entries ++ [entry]))
  else pure (.done entries)

def parseListen (entries : List Listen) : ConfigParser (List Listen) :=
  statement endOfStatement (loop listenRound entries)

end Listen

section Texts

/-- The file names of `parseIndex` that a dot begins. -/
def indexStart : ConfigParser (Bytes × Int) := do
  if ← check .dot then
    let firstDot ← consume .dot "expected dot at start of filename"
    let first ← consume .identifier "expected an identifier"
    pure (firstDot.lexeme ++ first.lexeme, tokenEnd first)
  else
    let first ← consume .identifier "expected an identifier"
    pure (first.lexeme, tokenEnd first)

/-- The text of the file name so far and the column where it ends. -/
def indexPart (s : Bytes × Int) : ConfigParser (ForInStep (Bytes × Int)) := do
  if ← check .dot then
    let dot ← tokenPeek
    if dot.column ≠ s.2 then pure (.done s)
    else
      let dot ← consume .dot "expected dot"
      let next ← consume .identifier "expected identifier after dot"
      pure (.yield (s.1 ++ dot.lexeme ++ next.lexeme, tokenEnd next))
  else pure (.done s)

def indexName : ConfigParser Bytes := do
  let s ← indexStart
  let s ← loop indexPart s
  pure s.1

def indexRound (names : List Bytes) : ConfigParser (ForInStep (List Bytes)) := do
  if ← check .semicolon then pure (.done names)
  else
    let name ← indexName
    pure (.yield (names ++ [name]))

def parseIndex : ConfigParser (List Bytes) := statement endOfStatement (loop indexRound [])

/-- The tokens of a path, with the texts of `consume`. -/
def pathParts : List (TokenType × String) :=
  [(.slash, "expected a '/'"),
   (.identifier, "expected an identifier"),
   (.dot, "expected a dot"),
   (.minus, "expected a minus"),
   (.colon, "expected a colon")]

/-- The chain of tests in the loop of `parsePath`. -/
def pathRound (temp : Bytes) : List (TokenType × String) → ConfigParser (ForInStep Bytes)
  | [] => pure (.done temp)
  | (type, message) :: parts => do
      if ← check type then
        let token ← consume type message
        pure (.yield (temp ++ token.lexeme))
      else pathRound temp parts

def parsePath : ConfigParser Bytes := loop (fun temp => pathRound temp pathParts) []

/-- The parts of a server name behind its first identifier. -/
def serverNamePart (temp : Bytes) : ConfigParser (ForInStep Bytes) := do
  if ← check .dot then
    let dot ← consume .dot "expected dot"
    let token ← consume .identifier "expected identifier after dot"
    pure (.yield (temp ++ dot.lexeme ++ token.lexeme))
  else pure (.done temp)

def serverNameRound (s : List Bytes × Bool) : ConfigParser (ForInStep (List Bytes × Bool)) := do
  if ← check .identifier then
    let token ← consume .identifier "expected an identifier"
    let name ← loop serverNamePart token.lexeme
    pure (.yield (s.1 ++ [name], true))
  else pure (.done s)

def serverNames (names : List Bytes) : ConfigParser (List Bytes) := do
  let (names, found) ← loop serverNameRound (names, false)
  if found then pure names else throw (failure "Expected at least one server name")

def parseServerName (names : List Bytes) : ConfigParser (List Bytes) :=
  statement endOfStatement (serverNames names)

end Texts

section Options

def methodsRound (methods : Methods) : ConfigParser (ForInStep Methods) := do
  if ← check .semicolon then pure (.done methods)
  else if ← tokenMatch .get then pure (.yield { methods with getMethod := true })
  else if ← tokenMatch .post then pure (.yield { methods with postMethod := true })
  else if ← tokenMatch .delete then pure (.yield { methods with deleteMethod := true })
  else throw (failure "Unrecognized method found. Allowed methods are GET POST DELETE")

def parseMethods : ConfigParser Methods :=
  statement "exptected ';' after the statement" (loop methodsRound {})

def autoIndexOption : ConfigParser Bool := do
  if ← tokenMatch .on then pure true
  else if ← check .off then
    let _ ← consume .off "expected off"
    pure false
  else throw (failure "Unrecognized option. Allowed options are on or off!")

def parseAutoIndex : ConfigParser Bool :=
  statement "exptected ';' after the statement" autoIndexOption

/-- The option of `chunked_transfer_encoding`. -/
def chunkedOption : ConfigParser Bool := do
  let token ← tokenPeek
  if token.type = .on then
    let _ ← consume .on "expected on"
    pure true
  else if token.type = .off then
    let _ ← consume .off "expected off"
    pure false
  else throw (failure ("Unexpected option for chunked_transfer_encoding, " ++
    "allowed options are on or off"))

/-- The value of `chunked_threshold` and of `chunked_size`. -/
def checkNumber (text : Bytes) : Except ParserError Nat :=
  if text.head? = some (byteOf '0') ∧ 1 < text.length then
    .error (.runtimeError (bytes "You mistyped a number: " ++ text))
  else if hasNonDigit text then
    .error (.runtimeError (bytes "Expected a number, got: " ++ text ++ bytes " instead"))
  else .ok (toSize (atol text))

def parseNumber : ConfigParser Nat := do
  let token ← consume .identifier "Expected numbers"
  lift (checkNumber token.lexeme)

/-- The product is that of `long` values, converted to `size_t`. -/
def bodySize (number : Bytes) : Except ParserError Nat :=
  match number.dropWhile isDigit with
  | [] => .ok (toSize (atol number))
  | unit :: _ =>
      if unit = byteOf 'k' then .ok (toSize (atol number * 1024))
      else if unit = byteOf 'm' then .ok (toSize (atol number * 1024 * 1024))
      else if unit = byteOf 'g' then .ok (toSize (atol number * 1024 * 1024 * 1024))
      else .error (failure
        "Unrecognizeable unit found in one of the max_client_body_size directive")

def parseMaxClientBody : ConfigParser Nat := do
  let token ← consume .identifier "expected number and unit specifier"
  lift (bodySize token.lexeme)

def timeoutValue (temp : Bytes) : Except ParserError Int :=
  if temp = [] ∨ temp.head? = some (byteOf '-') then
    .error (failure "Timeout value must be a positive integer")
  else if hasNonDigit temp then .error (failure "Non digit found in the timeout value")
  else if atol temp > 2 ^ 31 - 1 ∨ atol temp < 0 ∨ (atol temp = 0 ∧ temp.length > 1) then
    .error (failure "Timeout value must be a positive integer")
  else .ok (atol temp)

def parseTimeout : ConfigParser Int := do
  let token ← consume .identifier "expected identifier"
  lift (timeoutValue token.lexeme)

end Options

section ErrorPage

/-- The codes so far, and the identifier that is not one. -/
def errorCodeRound (s : List Bytes × Bytes) : ConfigParser (ForInStep (List Bytes × Bytes)) := do
  if ← check .identifier then
    let token ← consume .identifier "expected identifier"
    let next ← tokenPeek
    if !isSpaceBetween token next then pure (.done (s.1, token.lexeme))
    else if hasNonDigit token.lexeme then pure (.done (s.1, token.lexeme))
    else pure (.yield (s.1 ++ [token.lexeme], []))
  else pure (.done s)

/-- The pages of `codes`, added to `map`. -/
def errorPages (path : Bytes) : List Bytes → List (Nat × Bytes) →
    Except ParserError (List (Nat × Bytes))
  | [], map => .ok map
  | code :: codes, map =>
      if atoi code > 599 ∨ atoi code < 400 then
        .error (failure "Error codes can only range from 400 to 599")
      else errorPages path codes (mapInsert (atoi code).toNat path map)

/-- What follows the codes. -/
def errorPath (s : List Bytes × Bytes) : ConfigParser (List (Nat × Bytes)) := do
  let path ← parsePath
  lift (errorPages (s.2 ++ path) s.1 [])

def parseErrorPage : ConfigParser (List (Nat × Bytes)) :=
  statement "expected ';' after error_page" (do
    let s ← loop errorCodeRound ([], [])
    errorPath s)

end ErrorPage

section Return

/-- The status code, if the directive has one. -/
def returnCodeOf (nonDigit : Bool) (code : Int) : ConfigParser Int := do
  if nonDigit then pure code
  else
    let token ← consume .identifier "expected a status code"
    pure (toInt (atol token.lexeme))

/-- The path, if the directive has one. -/
def returnPathOf (nonDigit : Bool) (path : Bytes) : ConfigParser Bytes := do
  if nonDigit then parsePath
  else if ← check .semicolon then pure path
  else parsePath

def returnValue (path : Bytes) (code : Int) : ConfigParser (Bytes × Int) := do
  let token ← tokenPeek
  let code ← returnCodeOf (hasNonDigit token.lexeme) code
  let path ← returnPathOf (hasNonDigit token.lexeme) path
  pure (path, code)

def parseReturn (path : Bytes) (code : Int) : ConfigParser (Bytes × Int) :=
  statement endOfStatement (returnValue path code)

end Return

/-- The extension and the interpreter of `cgi`. -/
def cgiEntry : ConfigParser (Bytes × Bytes) := do
  let _ ← consume .dot "expected an extension type with a dot, example: .py"
  let token ← consume .identifier "expected an extension type with a dot, example: .py"
  let path ← parsePath
  pure (bytes "." ++ token.lexeme, path)

/-- The directives that a server and its locations have in common; `none` for
any other token. -/
def commonDirective (common : CommonConfig) : ConfigParser (Option CommonConfig) := do
  if ← tokenMatch .root then
    let root ← statement endOfStatement parsePath
    pure (some { common with root := root })
  else if ← tokenMatch .index then
    let names ← parseIndex
    pure (some { common with index := common.index ++ names })
  else if ← tokenMatch .methods then
    let methods ← parseMethods
    pure (some { common with methods := methods })
  else if ← tokenMatch .autoIndex then
    let autoIndex ← parseAutoIndex
    pure (some { common with autoIndex := autoIndex })
  else if ← tokenMatch .errorPage then
    let pages ← parseErrorPage
    pure (some { common with errorPage := mapInsertAll common.errorPage pages })
  else if ← tokenMatch .returnPath then
    let (path, code) ← parseReturn common.returnPath common.returnCode
    pure (some { common with returnPath := path, returnCode := code })
  else if ← tokenMatch .cgi then
    let (extension, path) ← statement endOfStatement cgiEntry
    pure (some { common with cgi := mapInsert extension path common.cgi })
  else if ← tokenMatch .maxClientBodySize then
    let size ← statement endOfStatement parseMaxClientBody
    pure (some { common with maxClientBody := size })
  else pure none

section Location

/-- What `parseLocation` starts from. -/
def newLocation (server : CommonConfig) (path : Bytes) : Location where
  path := path
  common := {
    maxClientBody := server.maxClientBody
    index := server.index
    autoIndex := server.autoIndex }

def locationRound (location : Location) : ConfigParser (ForInStep Location) := do
  if ← check .rightBrace then pure (.done location)
  else
    match ← commonDirective location.common with
    | some common => pure (.yield { location with common := common })
    | none =>
        if ← tokenMatch .chunkedTransferEncoding then
          let option ← statement endOfStatement chunkedOption
          pure (.yield { location with chunkedTransferEncoding := option })
        else if ← tokenMatch .chunkedThreshold then
          let threshold ← statement endOfStatement parseNumber
          pure (.yield { location with chunkedThreshold := threshold })
        else if ← tokenMatch .chunkedSize then
          let size ← statement endOfStatement parseNumber
          pure (.yield { location with chunkedSize := size })
        else
          let token ← tokenPeek
          throw (.runtimeError (bytes "Unexpected token in the location block: " ++ token.lexeme))

def locationBlock (server : CommonConfig) (path : Bytes) : ConfigParser Location := do
  let _ ← consume .leftBrace "expected opening '\x7b' for location block"
  let location ← loop locationRound (newLocation server path)
  let _ ← consume .rightBrace "expected closing '\x7d' for location block"
  pure location

def parseLocation (server : CommonConfig) : ConfigParser Location := do
  let path ← parsePath
  if path = [] then throw (failure "Location path cannot be empty!")
  else locationBlock server path

end Location

section Server

/-- `fillDefaultValues`. -/
def fillDefaultValues (temp : Config) : Config where
  serverName := []
  common := { temp.common with
    maxClientBody := 0
    autoIndex := false
    cgi := []
    errorPage := []
    index := []
    methods := {}
    returnCode := -1
    root := [] }
  location := []
  listen := []
  keepaliveTimeout := 0

/-- `checkForEmpty`, with the configuration that passes it. -/
def checkForEmpty (config : Config) : Except ParserError Config :=
  if config.serverName = [] ∨ config.listen = [] then
    .error (failure "Server name and listen cannot be empty for any server block")
  else .ok config

def serverDirective (temp : Config) : ConfigParser Config := do
  match ← commonDirective temp.common with
  | some common => pure { temp with common := common }
  | none =>
      if ← tokenMatch .listen then
        let entries ← parseListen temp.listen
        pure { temp with listen := entries }
      else if ← tokenMatch .serverName then
        let names ← parseServerName temp.serverName
        pure { temp with serverName := names }
      else if ← tokenMatch .location then
        let location ← parseLocation temp.common
        pure { temp with location := temp.location ++ [location] }
      else if ← tokenMatch .keepaliveTimeout then
        let timeout ← statement endOfStatement parseTimeout
        pure { temp with keepaliveTimeout := timeout }
      else
        let token ← tokenPeek
        throw (.runtimeError (bytes "Unexpected keyword found: " ++ token.lexeme))

def serverRound (temp : Config) : ConfigParser (ForInStep Config) := do
  if ← check .rightBrace then pure (.done temp)
  else if ← tokenIsAtEnd then pure (.done temp)
  else
    let temp ← serverDirective temp
    pure (.yield temp)

/-- What follows `server`: the block, for the `tempConfig` of the block before. -/
def serverBlock (temp : Config) : ConfigParser Config := do
  let _ ← consume .leftBrace "expected '\x7b' after server block"
  let temp ← loop serverRound (fillDefaultValues temp)
  let _ ← consume .rightBrace "expected terminator '\x7d' after server block content"
  lift (checkForEmpty temp)

end Server

/-- `tempConfig` and `_configVector`. -/
def configRound (s : Config × List Config) :
    ConfigParser (ForInStep (Config × List Config)) := do
  if ← tokenIsAtEnd then pure (.done s)
  else if ← tokenMatch .server then
    let temp ← serverBlock s.1
    pure (.yield (temp, s.2 ++ [temp]))
  else
    let token ← tokenPeek
    throw (.runtimeError (bytes "expected server block, got \"" ++ token.lexeme ++
      bytes "\" instead"))

def parseConfig : ConfigParser (Config × List Config) := loop configRound ({}, [])

section File

/-- The loop of `std::getline` over the text, with the characters of the line so
far: what it adds to `_source` and what `tempString` is in the end. The call
that finds nothing to read empties it. -/
def readLines (tempString : Bytes) : Bytes → Bytes × Bytes
  | [] => if tempString = [] then ([], []) else (tempString ++ [10], tempString)
  | c :: rest =>
      if c = 10 then
        let (source, last) := readLines [] rest
        (tempString ++ 10 :: source, last)
      else readLines (tempString ++ [c]) rest

def readSource (text : Bytes) : Except ParserError Bytes :=
  let (source, tempString) := readLines [] text
  if tempString = [] then .error (failure "File is empty, nothing to parse!")
  else .ok source

/-- The constructor of the class: the configurations that the text of the file
gives. -/
def parse (text : Bytes) : Except ParserError (List Config) := do
  let source ← readSource text
  let (s, _) ← parseConfig (scanTokens source)
  .ok s.2

end File

end ConfigParser

end FortyTwo.Webserv
