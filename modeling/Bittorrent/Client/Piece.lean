import Bittorrent.Lib.Exec
import Bittorrent.Misc.TcpTransfer
import Bittorrent.Proto.Deserialize
import Bittorrent.Proto.Serialize
import Bittorrent.Torrent

/-! The piece worker: one connection to one peer, on which pieces are fetched
one after another. A peer that answers "interested" with Have puts the worker
into have mode, where the peer chooses the pieces. -/

namespace Bittorrent.Client

open Lib.Exec Misc Net Proto Torrent

def maxBlockLen : Nat := 16 * 1024

/-- The reads of a session. -/
inductive Site where
  | handshake
  | bitfield
  | bitfieldBody
  | interested
  | interestedBody
  | waitHave
  | waitHaveBody
  | pieceHeader
  | pieceBody (pieceIdx : Nat)
  deriving DecidableEq

/-- What happened on a worker, oldest first: messages sent, bytes that arrived
for a read, the index stored when a piece is complete. -/
inductive Event where
  | sent (msg : Bytes)
  | received (site : Site) (asked : Nat) (got : Bytes)
  | completed (pieceIdx : Nat)
  deriving DecidableEq

/-- `ostream` is the stream given to the constructor; without one the worker
writes into its own buffer. The log is no part of the program. -/
structure PieceWorker where
  metainfo : Metainfo
  peerIp : String
  peerPort : Nat
  socket : Socket
  buffer : Bytes
  ostream : Option Bytes
  haveMode : Bool
  isPeerConnectionEstablished : Bool
  lastPieceIdx : Nat
  havePieceIdx : Option Nat
  log : List Event

/-- A worker with the internal buffer, before its first use. -/
def PieceWorker.new (metainfo : Metainfo) (peerIp : String) (peerPort : Nat) (socket : Socket) :
    PieceWorker where
  metainfo := metainfo
  peerIp := peerIp
  peerPort := peerPort
  socket := socket
  buffer := []
  ostream := none
  haveMode := false
  isPeerConnectionEstablished := false
  lastPieceIdx := 0
  havePieceIdx := none
  log := []

abbrev Session := EStateM Exception PieceWorker

/-! ## Reading and writing -/

def read (site : Site) (length : Nat) : Session (Except ErrorCode Bytes) := fun w =>
  .ok (w.socket.read length).1
    { w with
      socket := (w.socket.read length).2
      log := w.log ++ [.received site length (w.socket.arriving length)] }

def send (request : Bytes) : Session (Option ErrorCode) := fun w =>
  .ok w.socket.write.1 { w with socket := w.socket.write.2, log := w.log ++ [.sent request] }

def exchange (site : Site) (request : Bytes) (length : Nat) : Session (Except ErrorCode Bytes) := do
  if !(← get).socket.isOpen then return .error .notConnected
  match ← send request with
  | some e => return .error e
  | none => read site length

def orThrow {E α : Type} (exception : E → Exception) : Except E α → Session α
  | .ok a => pure a
  | .error e => throw (exception e)

def throwIf (c : Prop) [Decidable c] (e : Exception) : Session Unit :=
  if c then throw e else pure ()

def connectionError (peer : String) (e : ErrorCode) : Exception :=
  .runtimeError (peer ++ "Connection error: " ++ e.message)

def unexpectedAnswer (peer : String) (e : Error) : Exception :=
  .runtimeError (peer ++ "Unexpected answer from peer: " ++ e.name)

/-- The header in the answer to a read; a failed read and a bad header throw. -/
def headerOf (peer : String) (result : Except ErrorCode Bytes) : Session MsgHeader := do
  let msg ← orThrow (connectionError peer) result
  orThrow (unexpectedAnswer peer) (unpackMsgHeader msg)

/-- The body of a Have message; its length is the one the header announced. -/
def haveOf (site : Site) (bodyLength : Nat) : Session HaveMsg := do
  let body ← orThrow (connectionError "") (← read site bodyLength)
  orThrow (unexpectedAnswer "") (unpackHaveMsg body)

def notReady (peer : String) (id : MsgId) : Exception :=
  .runtimeError (peer ++ "Peer not ready to transmit data: peer answer " ++ id.name)

/-! ## Connection -/

section
variable (sha1 : Bytes → Digest)

def infoHash : Session Bytes := do
  orThrow id ((← get).metainfo.hash sha1)

def doHandshake : Session Unit := do
  let w ← get
  throwIf (!w.socket.isOpen)
    (.runtimeError s!"Can't open socket of address {w.peerIp}:{w.peerPort}")
  let handshakeMsg ← orThrow id (packHandshake
    { infoHash := ← infoHash sha1, peerId := ascii "00112233445566778899" })
  let result ← exchange .handshake handshakeMsg handshakeMsg.length
  let result ← orThrow (connectionError "") result
  let answer ← orThrow id (unpackHandshake result)
  let hash ← infoHash sha1
  throwIf (answer.infoHash ≠ hash) (.runtimeError
    s!"Invalid info hash. Expected {toText hash}, got {toText answer.infoHash}")

def doBitfieldOrUnchoke : Session Unit := do
  let answer ← headerOf "" (← read .bitfield MsgHeader.sizeInBytes)
  if answer.id = .bitfield then
    discard (orThrow (connectionError "") (← read .bitfieldBody answer.bodyLength))
  else if answer.id = .unchoke then
    pure ()
  else
    throw (.runtimeError
      s!"Unexpected msg id from peer: {answer.id.toByte}. Expected Bitfield (5)")

def doInterested : Session Unit := do
  let response ← headerOf "" (← exchange .interested packInterestedMsg MsgHeader.sizeInBytes)
  if response.id = .have then
    let msg ← haveOf .interestedBody response.bodyLength
    modify fun w => { w with havePieceIdx := some msg.index, haveMode := true }
  else throwIf (response.id ≠ .unchoke) (notReady "" response.id)

def connect : Session Unit := fun w =>
  let after := { w with socket := w.socket.connect.2 }
  match w.socket.connect.1 with
  | some e => .error (.systemError ("connect: " ++ e.message)) after
  | none => .ok () after

def connectToPeer : Session Unit := do
  connect
  doHandshake sha1
  doBitfieldOrUnchoke
  doInterested
  modify fun w => { w with isPeerConnectionEstablished := true }

end

/-! ## Fetching a piece -/

/-- True when the peer announced a piece; a timeout and Unchoke are no answer. -/
def waitHave : Session Bool := do
  let result ← read .waitHave MsgHeader.sizeInBytes
  if result = .error .operationAborted then
    return false
  let response ← headerOf "" result
  if response.id = .have then
    let msg ← haveOf .waitHaveBody response.bodyLength
    modify fun w => { w with havePieceIdx := some msg.index }
    return true
  else
    throwIf (response.id ≠ .unchoke) (notReady "" response.id)
    return false

/-- `a % b` on `long long` -/
def remainder (a b : Int) : Except Exception Int :=
  if b = 0 then .error (.undefined "division by zero")
  else if a = -2 ^ 63 ∧ b = -1 then .error (.undefined "signed overflow")
  else .ok (a.tmod b)

def pieceLen (metainfo : Metainfo) (pieceIdx : Nat) : Except Exception Int := do
  let pieceHashes ← metainfo.pieces
  let lastPieceLen ← remainder metainfo.length metainfo.pieceLength
  .ok (if pieceIdx = sizeT (pieceHashes.length - 1) then lastPieceLen else metainfo.pieceLength)

def writeBlock (block : Bytes) : Session Unit := modify fun w =>
  match w.ostream with
  | none => { w with buffer := w.buffer ++ block }
  | some out => { w with ostream := some (out ++ block) }

/-- One pass of the block loop: the number of bytes it wrote. -/
def fetchBlock (pieceIdx pieceLen receivedBytes : Nat) : Session Nat := do
  let w ← get
  let peer := s!"{w.peerIp}:{w.peerPort} "
  let remainBytes := sizeT (pieceLen - receivedBytes)
  let blockLen := if remainBytes > maxBlockLen then maxBlockLen else remainBytes
  let requestMsg := packRequestMsg (UInt32.ofNat pieceIdx) (UInt32.ofNat receivedBytes)
    (UInt32.ofNat blockLen)
  let pieceHeader ← headerOf peer (← exchange .pieceHeader requestMsg MsgHeader.sizeInBytes)
  throwIf (pieceHeader.id ≠ .piece) (notReady peer pieceHeader.id)
  let pieceBody ← orThrow (connectionError peer)
    (← read (.pieceBody pieceIdx) pieceHeader.bodyLength)
  let pieceMsg ← orThrow (unexpectedAnswer peer) (unpackPieceMsg pieceBody)
  writeBlock pieceMsg.block
  return pieceMsg.block.length

/-- The block loop; every pass takes a header off the stream, which bounds them. -/
def fetchBlocks (pieceIdx pieceLen : Nat) : Nat → Nat → Session Nat
  | 0, _ => throw .outOfFuel
  | fuel + 1, receivedBytes => do
    if receivedBytes = pieceLen then return receivedBytes
    let blockSize ← fetchBlock pieceIdx pieceLen receivedBytes
    fetchBlocks pieceIdx pieceLen fuel (receivedBytes + blockSize)

section
variable (sha1 : Bytes → Digest)

def ensureConnected : Session Unit := do
  if !(← get).isPeerConnectionEstablished then connectToPeer sha1

def fetchPiece (pieceIdx : Nat) : Session Unit := do
  ensureConnected sha1
  let w ← get
  let pieceLen := sizeT (← orThrow id (pieceLen w.metainfo pieceIdx))
  let receivedBytes ← fetchBlocks pieceIdx pieceLen (w.socket.incoming.length + 1) 0
  throwIf (receivedBytes ≠ pieceLen) (.runtimeError "Piece integrity is broken")
  modify fun w =>
    { w with
      lastPieceIdx := pieceIdx
      havePieceIdx := none
      log := w.log ++ [.completed pieceIdx] }

def takeHavePieceIdx : Session Nat := do
  match (← get).havePieceIdx with
  | some pieceIdx =>
    modify fun w => { w with havePieceIdx := none }
    return pieceIdx
  | none => throw (.runtimeError "bad optional access")

/-- Nothing marks the early return: the caller sees a transfer that ended well. -/
def downloadPiece (pieceIdx : Nat) : Session Unit := do
  modify fun w => { w with buffer := [] }
  let w ← get
  if w.havePieceIdx.isSome then
    fetchPiece sha1 (← takeHavePieceIdx)
  else if w.haveMode then
    if ← waitHave then
      fetchPiece sha1 (← takeHavePieceIdx)
  else
    fetchPiece sha1 pieceIdx

/-- Compares a block with the hash of a piece. No other function calls this one. -/
def checkPieceHash (pieceIdx : Nat) (pieceHash : Bytes) (pieceMsg : PieceMsg) :
    Except Exception Unit :=
  let calculatedPieceHash := hex (sha1 pieceMsg.block).bytes
  let expectedHash := hex pieceHash
  if expectedHash ≠ calculatedPieceHash then
    .error (.runtimeError (s!"Bad piece {pieceIdx} hash: expected {toText expectedHash}, got " ++
      toText calculatedPieceHash))
  else .ok ()

end

end Bittorrent.Client
