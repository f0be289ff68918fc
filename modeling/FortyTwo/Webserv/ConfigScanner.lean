import FortyTwo.Webserv.Config

/-!
The scanner of `Parser.cpp`: from the text of a configuration file to the list
of its tokens. Characters it does not know are reported and skipped.
-/

namespace FortyTwo.Webserv

inductive TokenType where
  | leftBrace | rightBrace | dot | minus | slash | semicolon | colon
  | identifier | server | listen | host | serverName | methods | get | post | delete
  | autoIndex | on | off | index | root | errorPage | location | cgi | maxClientBodySize
  | returnPath | chunkedTransferEncoding | chunkedThreshold | chunkedSize | keepaliveTimeout
  | endOfFile
  deriving DecidableEq, Repr

/-- `Token`; `column` is the offset of its first character in the source. -/
structure Token where
  type : TokenType
  lexeme : Bytes
  line : Int
  column : Int
  deriving DecidableEq, Repr

/-- `isalnum`, for bytes from 128 on too. -/
def isAlnum (c : UInt8) : Bool := isDigit c || isAlpha c

/-- `addKeywords`. -/
def keywords : List (Bytes × TokenType) :=
  [(bytes "server", .server),
   (bytes "listen", .listen),
   (bytes "host", .host),
   (bytes "server_name", .serverName),
   (bytes "methods", .methods),
   (bytes "GET", .get),
   (bytes "POST", .post),
   (bytes "DELETE", .delete),
   (bytes "auto_index", .autoIndex),
   (bytes "on", .on),
   (bytes "off", .off),
   (bytes "index", .index),
   (bytes "root", .root),
   (bytes "error_page", .errorPage),
   (bytes "location", .location),
   (bytes "cgi", .cgi),
   (bytes "max_client_body_size", .maxClientBodySize),
   (bytes "return", .returnPath),
   (bytes "chunked_transfer_encoding", .chunkedTransferEncoding),
   (bytes "chunked_threshold", .chunkedThreshold),
   (bytes "chunked_size", .chunkedSize),
   (bytes "keepalive_timeout", .keepaliveTimeout)]

/-- The characters that begin an identifier. The `-` of the source's test never
gets there. -/
def isIdentifierStart (c : UInt8) : Bool :=
  isAlnum c || c == byteOf '_' || c == byteOf '-' || c == byteOf '=' || c == byteOf '?'

def isIdentifierChar (c : UInt8) : Bool :=
  isAlnum c || c == byteOf '_' || c == byteOf '-' || c == byteOf '=' || c == byteOf '?' ||
    c == byteOf '.' || c == byteOf '#' || c == byteOf '/' || c == byteOf '\'' || c == byteOf '"'

/-- The type of the token that is the single character `c`. -/
def charToken (c : UInt8) : Option TokenType :=
  if c = 123 then some .leftBrace
  else if c = 125 then some .rightBrace
  else if c = byteOf '.' then some .dot
  else if c = byteOf '-' then some .minus
  else if c = byteOf '/' then some .slash
  else if c = byteOf ':' then some .colon
  else if c = byteOf ';' then some .semicolon
  else none

/-- The type of the identifier `text`. -/
def identifierType (text : Bytes) : TokenType := (keywords.lookup text).getD .identifier

/-- Where the scanner is: `_current`, `_line` and the source from there on. -/
structure ScanState where
  line : Int
  current : Int
  rest : Bytes

/-- `_current` after the characters up to `rest`. -/
def ScanState.jump (s : ScanState) (rest : Bytes) : ScanState :=
  { s with current := s.current + (s.rest.length - rest.length), rest := rest }

/-- `scanToken` at the character `c`, with `tail` behind it. -/
def scanToken (s : ScanState) (c : UInt8) (tail : Bytes) : Option Token × ScanState :=
  if c = byteOf ' ' ∨ c = 13 ∨ c = 9 then (none, s.jump tail)
  else
    match charToken c with
    | some type => (some ⟨type, [c], s.line, s.current⟩, s.jump tail)
    | none =>
        if c = byteOf '#' then (none, s.jump (tail.dropWhile (fun d => d != 10)))
        else if c = 10 then (none, { s.jump tail with line := s.line + 1 })
        else if isIdentifierStart c then
          let text := c :: tail.takeWhile isIdentifierChar
          (some ⟨identifierType text, text, s.line, s.current⟩,
            s.jump (tail.dropWhile isIdentifierChar))
        else (none, s.jump tail)

/-- The loop of `scanTokens`; every call of `scanToken` reads a character. -/
def scanFrom : Nat → ScanState → List Token
  | 0, _ => []
  | fuel + 1, s =>
      match s.rest with
      | [] => []
      | c :: tail => (scanToken s c tail).1.toList ++ scanFrom fuel (scanToken s c tail).2

/-- The tokens in front of `END_OF_FILE`. -/
def scanText (source : Bytes) : List Token := scanFrom source.length ⟨1, 0, source⟩

def endOfFile : Token := ⟨.endOfFile, [], -1, -1⟩

def scanTokens (source : Bytes) : List Token := scanText source ++ [endOfFile]

end FortyTwo.Webserv
