import FortyTwo.Foundation.ChunkedCoding
import FortyTwo.Webserv.Config

/-!
`Chunk.cpp`: a file that is sent chunk by chunk, and `write` to a socket that
may take less than it is offered.
-/

namespace FortyTwo.Webserv

open Foundation

/-- The client's socket: how many bytes the `k`-th `write` takes, if it does not
fail, how often it was called, and what the client has received. -/
structure Socket where
  outcomes : Nat → Option Nat
  writes : Nat := 0
  received : Bytes := []

/-- `write`: no more is taken than is offered. -/
def Socket.write (socket : Socket) (data : Bytes) : Option Nat × Socket :=
  match socket.outcomes socket.writes with
  | none => (none, { socket with writes := socket.writes + 1 })
  | some n =>
      let written := min n data.length
      (some written, { socket with
        writes := socket.writes + 1
        received := socket.received ++ data.take written })

/-- `stream_offset`, `stream_pending_data` and `stream_pending_sent`. -/
structure Stream where
  offset : Nat := 0
  pendingData : Bytes := []
  pendingSent : Nat := 0
  deriving DecidableEq, Repr

namespace Chunk

/-- A number as a stream writes it under `std::hex`. -/
def hex (n : Nat) : Bytes := Chunked.hexDigits n

def encode (data : Bytes) : Bytes := hex data.length ++ crlf ++ data ++ crlf

def generateFinalChunk : Bytes := bytes "0\r\n\r\n"

def defaultChunkSize : Nat := 8192

def chunkSize (location : Option Location) : Nat :=
  match location with
  | some location => if location.chunkedSize > 0 then location.chunkedSize else defaultChunkSize
  | none => defaultChunkSize

/-- The part of `stream_file_chunked` that reads and sends the next chunk. -/
def sendNextChunk (content : Bytes) (chunkSize : Nat) (stream : Stream) (socket : Socket) :
    Stream × Socket :=
  if content.length ≤ stream.offset then
    ({ stream with pendingData := generateFinalChunk, pendingSent := 0 }, socket)
  else
    let chunkData := (content.drop stream.offset).take chunkSize
    if chunkData.length = 0 then
      ({ stream with pendingData := generateFinalChunk, pendingSent := 0 }, socket)
    else
      let encodedChunk := encode chunkData
      match socket.write encodedChunk with
      | (none, socket) => ({ stream with pendingData := encodedChunk, pendingSent := 0 }, socket)
      | (some written, socket) =>
          if written < encodedChunk.length then
            ({ stream with pendingData := encodedChunk, pendingSent := written }, socket)
          else
            let stream := { stream with offset := stream.offset + chunkData.length }
            if content.length ≤ stream.offset then
              ({ stream with pendingData := generateFinalChunk, pendingSent := 0 }, socket)
            else (stream, socket)

/-- `stream_file_chunked` of a file that opens with this content, if it opens;
the second component is `finished`. -/
def streamFileChunked (file : Option Bytes) (location : Option Location) (stream : Stream)
    (socket : Socket) : Status × Bool × Stream × Socket :=
  match file with
  | none => (.internalServerError, false, stream, socket)
  | some content =>
      if stream.pendingData ≠ [] then
        match socket.write (stream.pendingData.drop stream.pendingSent) with
        | (none, socket) => (.ok, false, stream, socket)
        | (some written, socket) =>
            let stream := { stream with pendingSent := stream.pendingSent + written }
            if stream.pendingSent < stream.pendingData.length then (.ok, false, stream, socket)
            else
              let flushed := { stream with pendingData := [], pendingSent := 0 }
              if stream.pendingData = generateFinalChunk then (.ok, true, flushed, socket)
              else (.ok, false, sendNextChunk content (chunkSize location) flushed socket)
      else (.ok, false, sendNextChunk content (chunkSize location) stream socket)

/-- At most `calls` calls of `stream_file_chunked`, up to the one that sets
`finished`. -/
def streamCalls (file : Option Bytes) (location : Option Location) :
    Nat → Stream → Socket → Option Socket
  | 0, _, _ => none
  | calls + 1, stream, socket =>
      match streamFileChunked file location stream socket with
      | (_, true, _, socket) => some socket
      | (_, false, stream, socket) => streamCalls file location calls stream socket

end Chunk

end FortyTwo.Webserv
