import Bittorrent.Client.Worker
import Bittorrent.Misc.ParseIpPort

/-! Downloading a file: every round starts as many transfers as there are idle
workers and pieces left, waits for each of them, and takes the piece a worker
reports off the list. The loop is the relation `Heads` between the states at
its heads. -/

namespace Bittorrent.Client

open Lib Lib.Exec Misc Net Proto Torrent

/-- What the scheduler keeps besides its workers: the list of pieces, the
contents of `piece_{i}`, the output. The indexes requested and those passed to
`write_piece` are recorded and never read. -/
structure Store where
  piecesToDownload : List Nat
  files : Nat → Option Bytes
  ostream : Bytes
  requested : List Nat
  written : List Nat

abbrev Scheduler := EStateM Exception Store

def lift {α : Type} : Except Exception α → Scheduler α
  | .ok a => pure a
  | .error e => throw e

/-- Some order of the first `n` numbers. -/
structure Shuffled (n : Nat) where
  indexes : List Nat
  perm : indexes.Perm (List.range n)

def getSomeIndexes (indexes : List Nat) (upTo : Nat) : List Nat :=
  if indexes.isEmpty then [] else indexes.take (min upTo indexes.length)

def popPiece (idx : Nat) : Scheduler Unit := fun s =>
  if idx ∈ s.piecesToDownload then
    .ok () { s with piecesToDownload := s.piecesToDownload.erase idx }
  else
    .error (.runtimeError s!"Can download piece twice! Bad piece: {idx}") s

def writePiece (piece : Bytes) (pieceIdx : Nat) : Scheduler Unit := fun s =>
  .ok () { s with
    files := fun i => if i = pieceIdx then some piece else s.files i
    written := s.written ++ [pieceIdx] }

section
variable {B : Type} (ops : PieceBody B)

/-- The loop of `start_workers`, with the indexes it requests. -/
def startLoop : List Nat → List (Worker B) → Except Exception (List (Worker B) × List Nat)
  | _, [] => .ok ([], [])
  | [], workers => .ok (workers, [])
  | i :: indexes, w :: workers =>
    if w.started then do
      let (workers, requested) ← startLoop (i :: indexes) workers
      .ok (w :: workers, requested)
    else do
      let w ← w.downloadPieceAsync i
      let (workers, requested) ← startLoop indexes workers
      .ok (w :: workers, i :: requested)

def startWorkers (workers : List (Worker B)) : Scheduler (List (Worker B)) := do
  let store ← get
  let availableWorkersCount := workers.countP fun w => !w.started
  let indexes := getSomeIndexes store.piecesToDownload availableWorkersCount
  let (workers, requested) ← lift (startLoop indexes workers)
  modify fun s => { s with requested := s.requested ++ requested }
  return workers

/-- One pass of the loop over the started workers. -/
def awaitWorker (w : Worker B) : Scheduler (Worker B) := do
  if !w.started then return w
  let (complete, w) ← lift (w.waitPieceTransfer ops)
  if complete then
    let pieceIdx := ops.lastPieceIdx w.body
    popPiece pieceIdx
    writePiece (ops.piece w.body) pieceIdx
    return w
  else if ops.haveMode w.body then
    return w
  else
    lift w.raise
    return w

def awaitWorkers : List (Worker B) → Scheduler (List (Worker B))
  | [] => pure []
  | w :: workers => do
    let w ← awaitWorker ops w
    let workers ← awaitWorkers workers
    return w :: workers

/-- The body of the loop. -/
def round (workers : List (Worker B)) : Scheduler (List (Worker B)) := do
  let workers ← startWorkers workers
  awaitWorkers ops workers

/-- The state at the head of the loop. -/
structure Download (B : Type) where
  workers : List (Worker B)
  store : Store

def Running (d : Download B) : Prop := d.store.piecesToDownload ≠ []

def loopBody : EStateM Exception (Download B) Unit := fun d =>
  match round ops d.workers d.store with
  | .ok workers store => .ok () ⟨workers, store⟩
  | .error e store => .error e ⟨d.workers, store⟩

/-- `k` rounds lead from one loop head to another. -/
abbrev Heads : Download B → Nat → Download B → Prop := Iterates Running (loopBody ops)

def Download.start {n : Nat} (shuffled : Shuffled n) (workers : List (Worker B))
    (files : Nat → Option Bytes) (ostream : Bytes) : Download B where
  workers := workers
  store := ⟨shuffled.indexes, files, ostream, [], []⟩

end

/-! ## Gathering -/

/-- The `readsome` loop on a piece file. -/
def copyFile : Nat → Bytes → Scheduler Unit
  | 0, _ => throw .outOfFuel
  | fuel + 1, pieceFile => do
    let ioBuffer := pieceFile.take 512
    modify fun s => { s with ostream := s.ostream ++ ioBuffer }
    if ioBuffer.length = 0 then return ()
    copyFile fuel (pieceFile.drop 512)

def gatherPiece (piece : Nat) : Scheduler Unit := do
  match (← get).files piece with
  | none => throw (.runtimeError
      s!"Gathering file error. Piece .pieces/piece_{piece} not found.")
  | some content => copyFile (content.length + 1) content

def gatherFrom : Nat → Nat → Scheduler Unit
  | 0, _ => pure ()
  | count + 1, piece => do
    gatherPiece piece
    gatherFrom count (piece + 1)

def gatherPieces (piecesCount : Nat) : Scheduler Unit := gatherFrom piecesCount 0

/-! ## Setting up the workers -/

section
variable (sha1 : Bytes → Digest) (makeAddress : Bytes → Except Exception Unit)

/-- The worker for a peer, if its connection can be established; `makeAddress`
is the check of the address that the constructor makes. -/
def setupWorker (metainfo : Metainfo) (peer : Bytes) (socket : Socket) :
    Except Exception (Option (Worker PieceWorker)) := do
  let (peerIp, peerPort) ← parseIpPort peer
  makeAddress peerIp
  let worker := Worker.new (.new metainfo (toText peerIp) (Decimal.value peerPort) socket)
  let worker ← worker.checkConnectionAsync
  let (established, worker) ← worker.waitConnectionEstablished (pieceWorker sha1)
  .ok (if established then some worker else none)

/-- `peers` lists each peer with the connection to it. -/
def setupWorkers (metainfo : Metainfo) : List (Bytes × Socket) →
    Except Exception (List (Worker PieceWorker))
  | [] => .ok []
  | (peer, socket) :: peers => do
    let worker ← setupWorker sha1 makeAddress metainfo peer socket
    let workers ← setupWorkers metainfo peers
    .ok (worker.toList ++ workers)

/-- `download_file` comes to the head of its loop in state `d` after `k` rounds. -/
def DownloadFile.Reaches (metainfo : Metainfo) (peers : List (Bytes × Socket)) {n : Nat}
    (shuffled : Shuffled n) (files : Nat → Option Bytes) (ostream : Bytes) (k : Nat)
    (d : Download PieceWorker) : Prop :=
  ∃ pieces workers, metainfo.pieces = .ok pieces ∧ n = pieces.length ∧
    setupWorkers sha1 makeAddress metainfo peers = .ok workers ∧ workers ≠ [] ∧
    Heads (pieceWorker sha1) (.start shuffled workers files ostream) k d

/-- `download_file` returns, leaving `store`. -/
def DownloadFile.Returns (metainfo : Metainfo) (peers : List (Bytes × Socket)) {n : Nat}
    (shuffled : Shuffled n) (files : Nat → Option Bytes) (ostream : Bytes) (store : Store) : Prop :=
  ∃ k d, DownloadFile.Reaches sha1 makeAddress metainfo peers shuffled files ostream k d ∧
    ¬ Running d ∧ gatherPieces n d.store = .ok () store

end

end Bittorrent.Client
