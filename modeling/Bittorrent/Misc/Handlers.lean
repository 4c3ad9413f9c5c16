import Bittorrent.Lib.Runs
import Bittorrent.Misc.TcpTransfer

/-! `TcpTransfer` with its handlers. While `io.run()` works the clock advances,
chunks arrive, the socket takes or gives bytes and timers expire; a handler that
is queued runs at some time, whatever else is queued. A run is a list of such
actions, and `run()` returns when no work is left. -/

namespace Bittorrent.Net

open Lib.Runs

/-! ## Timers and operations -/

/-- `steady_clock` counts nanoseconds. -/
def ticksPerSecond : Nat := 1000000000

/-- A `steady_timer` with its waits: the pending ones, and those whose handler is
queued with success or with `operation_aborted`. -/
structure Timer where
  expiry : Nat
  waiting : Nat
  expired : Nat
  aborted : Nat
  deriving DecidableEq

namespace Timer

def startedAt (now seconds : Nat) : Timer := ⟨now + seconds * ticksPerSecond, 0, 0, 0⟩

def asyncWait (timer : Timer) : Timer := { timer with waiting := timer.waiting + 1 }

/-- The expiry time stays, and so does a handler that is queued with success. -/
def cancel (timer : Timer) : Timer :=
  { timer with waiting := 0, aborted := timer.aborted + timer.waiting }

def Due (timer : Timer) (now : Nat) : Prop := timer.expiry ≤ now ∧ 0 < timer.waiting

instance instDecidableDue (timer : Timer) (now : Nat) : Decidable (timer.Due now) :=
  inferInstanceAs (Decidable (_ ∧ _))

/-- All waits are over at the expiry time. -/
def expire (timer : Timer) : Timer :=
  { timer with waiting := 0, expired := timer.expired + timer.waiting }

def idle (timer : Timer) : Bool := timer.waiting + timer.expired + timer.aborted = 0

end Timer

/-- One `write_some` or `read_some`: with the socket, or over and its handler queued. -/
inductive Part where
  | pending (maxSize : Nat)
  | completed (ec : Option ErrorCode) (bytesTransferred : Nat)
  deriving DecidableEq

/-- A part of no bytes is over at once. -/
def Part.start (size : Nat) : Part := if size = 0 then .completed none 0 else .pending size

inductive Direction where
  | write
  | read
  deriving DecidableEq

/-- An `async_write` or `async_read`: what the parts before transferred, and the
part it is at. The socket has one of them at a time, because a handler starts the
next one when the last is over. -/
structure Operation where
  direction : Direction
  total : Nat
  part : Part
  deriving DecidableEq

/-- Bytes of the peer, and the time before which they do not come. -/
structure Arrival where
  time : Nat
  chunk : Bytes
  chunk_ne : chunk ≠ []

def chunks (arrivals : List Arrival) : Bytes := arrivals.flatMap Arrival.chunk

/-- `vector::resize` -/
def resize (buffer : Bytes) (size : Nat) : Bytes :=
  buffer.take size ++ List.replicate (size - buffer.length) 0

/-- `default_max_transfer_size` -/
def defaultMaxTransferSize : Nat := 65536

/-- `transfer_all`, the condition of an `async_write` that is given none. -/
def transferAll (ec : Option ErrorCode) : Nat := if ec.isSome then 0 else defaultMaxTransferSize

/-! ## The handlers -/

/-- Who calls `_socket.cancel()`. -/
inductive Handler where
  | onWriteComplete
  | onWriteTimeout
  | onReadPartly
  | onReadComplete
  | onReadTimeout
  deriving DecidableEq

/-- The fields of the class and, in front, what is outside: the clock, the socket
and what is under way on it. `ended` and `cancels` only record how operations
ended and who cancelled the socket. -/
structure TcpTransfer where
  now : Nat
  isOpen : Bool
  arrivals : List Arrival
  available : Bytes
  request : Bytes
  sent : Bytes
  operation : Option Operation
  readTimeoutTimer : Timer
  writeTimeoutTimer : Timer
  writeError : Option ErrorCode
  readError : Option ErrorCode
  buffer : Bytes
  expectedResponseLength : Nat
  ended : List (Direction × Option ErrorCode)
  cancels : List Handler

namespace TcpTransfer

/-- The constructor; only here the timers are given an expiry time. -/
def new (now : Nat) (isOpen : Bool) (arrivals : List Arrival) (readTimeout : Nat) : TcpTransfer where
  now
  isOpen
  arrivals
  available := []
  request := []
  sent := []
  operation := none
  readTimeoutTimer := .startedAt now readTimeout
  writeTimeoutTimer := .startedAt now 2
  writeError := some .operationAborted
  readError := some .operationAborted
  buffer := []
  expectedResponseLength := 64
  ended := []
  cancels := []

/-- What the peer sends and has not been read. -/
def remaining (t : TcpTransfer) : Bytes := t.available ++ chunks t.arrivals

/-- A pending part is aborted; one that is over keeps its result. -/
def cancelSocket (t : TcpTransfer) (caller : Handler) : TcpTransfer :=
  let t := { t with cancels := t.cancels ++ [caller] }
  match t.operation with
  | some ⟨direction, total, .pending _⟩ =>
    { t with operation := some ⟨direction, total, .completed (some .operationAborted) 0⟩ }
  | _ => t

def onReadPartly (t : TcpTransfer) (error : Option ErrorCode) (bytesRead : Nat) :
    Nat × TcpTransfer :=
  let t := { t with readTimeoutTimer := t.readTimeoutTimer.cancel, readError := error }
  if t.readError.isSome then (0, t.cancelSocket .onReadPartly)
  else
    (t.expectedResponseLength - bytesRead,
      { t with readTimeoutTimer := t.readTimeoutTimer.asyncWait })

def onReadComplete (t : TcpTransfer) (error : Option ErrorCode) : TcpTransfer :=
  let t := { t with
    readTimeoutTimer := t.readTimeoutTimer.cancel
    readError := error
    ended := t.ended ++ [(Direction.read, error)] }
  if t.readError.isSome then t.cancelSocket .onReadComplete else t

/-- `async_read`: the condition is asked before the first part. -/
def asyncRead (t : TcpTransfer) : TcpTransfer :=
  let (maxSize, t) := t.onReadPartly none 0
  { t with operation := some ⟨.read, 0, .start maxSize⟩ }

/-- `read_op` behind a part. -/
def readOp (t : TcpTransfer) (total : Nat) (ec : Option ErrorCode) (bytesTransferred : Nat) :
    TcpTransfer :=
  let total := total + bytesTransferred
  if ec = none ∧ bytesTransferred = 0 ∨ total = t.expectedResponseLength then t.onReadComplete ec
  else
    let (maxSize, t) := t.onReadPartly ec total
    if maxSize = 0 then t.onReadComplete ec
    else { t with operation := some ⟨.read, total, .start maxSize⟩ }

def onWriteComplete (t : TcpTransfer) (ec : Option ErrorCode) : TcpTransfer :=
  let t := { t with
    writeTimeoutTimer := t.writeTimeoutTimer.cancel
    writeError := ec
    ended := t.ended ++ [(Direction.write, ec)] }
  if t.writeError.isSome then t.cancelSocket .onWriteComplete
  else asyncRead { t with readTimeoutTimer := t.readTimeoutTimer.asyncWait }

/-- `async_write` -/
def asyncWrite (t : TcpTransfer) (request : Bytes) : TcpTransfer :=
  { t with
    request
    operation := some ⟨.write, 0, .start (min (transferAll none) request.length)⟩ }

/-- `write_op` behind a part. -/
def writeOp (t : TcpTransfer) (total : Nat) (ec : Option ErrorCode) (bytesTransferred : Nat) :
    TcpTransfer :=
  let total := total + bytesTransferred
  if ec = none ∧ bytesTransferred = 0 ∨ total = t.request.length then t.onWriteComplete ec
  else
    let maxSize := transferAll ec
    if maxSize = 0 then t.onWriteComplete ec
    else { t with operation := some ⟨.write, total, .start (min maxSize (t.request.length - total))⟩ }

def onWriteTimeout (t : TcpTransfer) (error : Option ErrorCode) : TcpTransfer :=
  if error = some .operationAborted then t
  else if error.isNone then t.cancelSocket .onWriteTimeout
  else t

def onReadTimeout (t : TcpTransfer) (ec : Option ErrorCode) : TcpTransfer :=
  if ec.isNone then t.cancelSocket .onReadTimeout else t

def prepareTransfer (t : TcpTransfer) (request : Bytes) (expectedResponseLength : Nat) :
    TcpTransfer :=
  let t := { t with
    expectedResponseLength
    buffer := resize t.buffer expectedResponseLength
    writeError := some .operationAborted
    readError := some .operationAborted }
  let t := t.asyncWrite request
  { t with writeTimeoutTimer := t.writeTimeoutTimer.asyncWait }

def prepareRead (t : TcpTransfer) (expectedResponseLength : Nat) : TcpTransfer :=
  let t := { t with
    expectedResponseLength
    buffer := resize t.buffer expectedResponseLength
    readError := some .operationAborted }
  asyncRead { t with readTimeoutTimer := t.readTimeoutTimer.asyncWait }

/-! ## The `io_context` -/

inductive Action where
  | tick (duration : Nat)
  | arrive
  | transfer (bytesTransferred : Nat)
  | fail (ec : ErrorCode)
  | expire (timer : Direction)
  -- Handlers run: that of a part, and those of a timer that expired or was cancelled.
  | complete
  | timeout (timer : Direction)
  | reset (timer : Direction)

def timer (t : TcpTransfer) : Direction → Timer
  | .write => t.writeTimeoutTimer
  | .read => t.readTimeoutTimer

def setTimer (t : TcpTransfer) (direction : Direction) (timer : Timer) : TcpTransfer :=
  match direction with
  | .write => { t with writeTimeoutTimer := timer }
  | .read => { t with readTimeoutTimer := timer }

def onTimeout (t : TcpTransfer) (direction : Direction) (ec : Option ErrorCode) : TcpTransfer :=
  match direction with
  | .write => t.onWriteTimeout ec
  | .read => t.onReadTimeout ec

/-- The socket takes or gives this many bytes, one at least. -/
def transferSome (t : TcpTransfer) (direction : Direction) (total maxSize bytesTransferred : Nat) :
    Option TcpTransfer :=
  let t := { t with operation := some ⟨direction, total, .completed none bytesTransferred⟩ }
  match direction with
  | .write =>
    if 0 < bytesTransferred ∧ bytesTransferred ≤ maxSize then
      some { t with sent := t.sent ++ (t.request.drop total).take bytesTransferred }
    else none
  | .read =>
    if 0 < bytesTransferred ∧ bytesTransferred ≤ min maxSize t.available.length then
      some { t with
        available := t.available.drop bytesTransferred
        buffer := t.buffer.take total ++ t.available.take bytesTransferred ++
          t.buffer.drop (total + bytesTransferred) }
    else none

def step (action : Action) (t : TcpTransfer) : Option TcpTransfer :=
  match action with
  | .tick duration => some { t with now := t.now + duration }
  | .arrive =>
    match t.arrivals with
    | [] => none
    | arrival :: arrivals =>
      if arrival.time ≤ t.now then
        some { t with arrivals, available := t.available ++ arrival.chunk }
      else none
  | .transfer bytesTransferred =>
    match t.operation with
    | some ⟨direction, total, .pending maxSize⟩ =>
      t.transferSome direction total maxSize bytesTransferred
    | _ => none
  | .fail ec =>
    match t.operation with
    | some ⟨direction, total, .pending _⟩ =>
      some { t with operation := some ⟨direction, total, .completed (some ec) 0⟩ }
    | _ => none
  | .expire direction =>
    if (t.timer direction).Due t.now then
      some (t.setTimer direction (t.timer direction).expire)
    else none
  | .complete =>
    match t.operation with
    | some ⟨.write, total, .completed ec bytesTransferred⟩ =>
      some (writeOp { t with operation := none } total ec bytesTransferred)
    | some ⟨.read, total, .completed ec bytesTransferred⟩ =>
      some (readOp { t with operation := none } total ec bytesTransferred)
    | _ => none
  | .timeout direction =>
    let timer := t.timer direction
    if 0 < timer.expired then
      some ((t.setTimer direction { timer with expired := timer.expired - 1 }).onTimeout direction
        none)
    else none
  | .reset direction =>
    let timer := t.timer direction
    if 0 < timer.aborted then
      some ((t.setTimer direction { timer with aborted := timer.aborted - 1 }).onTimeout direction
        (some .operationAborted))
    else none

/-- No work is left. -/
def stopped (t : TcpTransfer) : Bool :=
  t.operation.isNone && t.readTimeoutTimer.idle && t.writeTimeoutTimer.idle

def readResult (t : TcpTransfer) : Except ErrorCode Bytes :=
  match t.readError with
  | some ec => .error ec
  | none => .ok t.buffer

def transferResult (t : TcpTransfer) : Except ErrorCode Bytes :=
  match t.writeError with
  | some ec => .error ec
  | none => t.readResult

/-- `do_transfer` when `run()` does this, if it returns then. -/
def doTransfer (t : TcpTransfer) (request : Bytes) (expectedResponseLength : Nat)
    (actions : List Action) : Option (Except ErrorCode Bytes × TcpTransfer) :=
  if !t.isOpen then some (.error .notConnected, t)
  else do
    let t ← run step actions (t.prepareTransfer request expectedResponseLength)
    if t.stopped then some (t.transferResult, t) else none

def doRead (t : TcpTransfer) (expectedResponseLength : Nat) (actions : List Action) :
    Option (Except ErrorCode Bytes × TcpTransfer) :=
  if !t.isOpen then some (.error .notConnected, t)
  else do
    let t ← run step actions (t.prepareRead expectedResponseLength)
    if t.stopped then some (t.readResult, t) else none

end TcpTransfer

/-! ## Parts fit -/

/-- What a part can be when this many bytes are left to its operation. -/
def Part.Fits (left : Nat) : Part → Prop
  | .pending maxSize => 0 < maxSize ∧ maxSize ≤ left
  | .completed none bytesTransferred => bytesTransferred ≤ left ∧ (bytesTransferred = 0 → left = 0)
  | .completed (some _) bytesTransferred => bytesTransferred = 0 ∧ 0 < left

theorem Part.fits_start {left size : Nat} (hle : size ≤ left) (hzero : size = 0 → left = 0) :
    (Part.start size).Fits left := by
  unfold Part.start
  by_cases hs : size = 0
  · rw [if_pos hs]
    exact ⟨Nat.zero_le _, fun _ => hzero hs⟩
  · rw [if_neg hs]
    exact ⟨Nat.pos_of_ne_zero hs, hle⟩

theorem Part.start_ne_failed (size : Nat) (ec : ErrorCode) (n : Nat) :
    Part.start size ≠ .completed (some ec) n := by
  unfold Part.start
  split
  · exact fun he => by cases he
  · exact fun he => by cases he

theorem Timer.idle_iff {timer : Timer} : timer.idle = true ↔
    timer.waiting = 0 ∧ timer.expired = 0 ∧ timer.aborted = 0 := by
  simp only [Timer.idle, decide_eq_true_eq]
  omega

theorem chunks_pos {arrivals : List Arrival} {arrival : Arrival} (h : arrival ∈ arrivals) :
    0 < (chunks arrivals).length := by
  have hle : arrival.chunk.length ≤ (chunks arrivals).length :=
    (List.sublist_flatten_of_mem (List.mem_map_of_mem h)).length_le
  exact Nat.lt_of_lt_of_le (List.length_pos_iff.mpr arrival.chunk_ne) hle

namespace TcpTransfer

/-- The bytes an operation is to transfer. -/
def size (t : TcpTransfer) : Direction → Nat
  | .write => t.request.length
  | .read => t.expectedResponseLength

/-- The operation under way has transferred no more than it is to, and its part
fits into what is left. -/
def Fits (t : TcpTransfer) : Prop :=
  ∀ direction total part, t.operation = some ⟨direction, total, part⟩ →
    total ≤ t.size direction ∧ part.Fits (t.size direction - total)

variable {t t' : TcpTransfer}

/-- Cancelling changes at most the part, from pending to aborted. -/
theorem cancelSocket_eq (t : TcpTransfer) (caller : Handler) :
    t.cancelSocket caller = { t with cancels := t.cancels ++ [caller] } ∨
    ∃ direction total maxSize, t.operation = some ⟨direction, total, .pending maxSize⟩ ∧
      t.cancelSocket caller = { t with
        cancels := t.cancels ++ [caller]
        operation := some ⟨direction, total, .completed (some .operationAborted) 0⟩ } := by
  unfold cancelSocket
  dsimp only
  split
  · next hop => exact .inr ⟨_, _, _, hop, rfl⟩
  · exact .inl rfl

theorem cancelSocket_pending {direction : Direction} {total maxSize : Nat}
    (hop : t.operation = some ⟨direction, total, .pending maxSize⟩) (caller : Handler) :
    (t.cancelSocket caller).operation =
      some ⟨direction, total, .completed (some .operationAborted) 0⟩ := by
  simp only [cancelSocket, hop]

theorem cancelSocket_of_none (hop : t.operation = none) (caller : Handler) :
    t.cancelSocket caller = { t with cancels := t.cancels ++ [caller] } := by
  rcases t.cancelSocket_eq caller with heq | ⟨_, _, _, hpending, _⟩
  · exact heq
  · cases hop.symm.trans hpending

theorem cancelSocket_cancels (t : TcpTransfer) (caller : Handler) :
    (t.cancelSocket caller).cancels = t.cancels ++ [caller] := by
  rcases t.cancelSocket_eq caller with heq | ⟨_, _, _, _, heq⟩
  · rw [heq]
  · rw [heq]

theorem cancelSocket_now (t : TcpTransfer) (caller : Handler) :
    (t.cancelSocket caller).now = t.now := by
  rcases t.cancelSocket_eq caller with heq | ⟨_, _, _, _, heq⟩
  · rw [heq]
  · rw [heq]

theorem cancelSocket_ended (t : TcpTransfer) (caller : Handler) :
    (t.cancelSocket caller).ended = t.ended := by
  rcases t.cancelSocket_eq caller with heq | ⟨_, _, _, _, heq⟩
  · rw [heq]
  · rw [heq]

theorem cancelSocket_timers (t : TcpTransfer) (caller : Handler) :
    (t.cancelSocket caller).readTimeoutTimer = t.readTimeoutTimer ∧
    (t.cancelSocket caller).writeTimeoutTimer = t.writeTimeoutTimer := by
  rcases t.cancelSocket_eq caller with heq | ⟨_, _, _, _, heq⟩
  · rw [heq]
    exact ⟨rfl, rfl⟩
  · rw [heq]
    exact ⟨rfl, rfl⟩

theorem stopped_iff : t.stopped = true ↔
    t.operation = none ∧ t.readTimeoutTimer.idle = true ∧ t.writeTimeoutTimer.idle = true := by
  rw [stopped, Bool.and_eq_true, Bool.and_eq_true, Option.isNone_iff_eq_none, and_assoc]

end TcpTransfer

/-- The handler of a timer that expired. -/
def Direction.onTimeout : Direction → Handler
  | .write => .onWriteTimeout
  | .read => .onReadTimeout

namespace TcpTransfer

variable {t t' : TcpTransfer}

theorem onTimeout_none (t : TcpTransfer) (direction : Direction) :
    t.onTimeout direction none = t.cancelSocket direction.onTimeout := by
  cases direction <;> rfl

theorem onTimeout_aborted (t : TcpTransfer) (direction : Direction) :
    t.onTimeout direction (some .operationAborted) = t := by
  cases direction <;> rfl

/-! ## What completing a part does -/

section
variable {total n : Nat}

theorem readOp_more (hn : n ≠ 0) (hlt : total + n < t.expectedResponseLength) :
    { t with operation := none }.readOp total none n = { t with
      operation := some ⟨.read, total + n, .start (t.expectedResponseLength - (total + n))⟩
      readTimeoutTimer := t.readTimeoutTimer.cancel.asyncWait
      readError := none } := by
  have hmore : t.expectedResponseLength - (total + n) ≠ 0 := by omega
  unfold readOp
  dsimp only
  rw [if_neg (by omega)]
  simp only [onReadPartly, Option.isSome_none, Bool.false_eq_true, if_false, hmore]

theorem readOp_done (hall : total + n = t.expectedResponseLength) :
    { t with operation := none }.readOp total none n = { t with
      operation := none
      readTimeoutTimer := t.readTimeoutTimer.cancel
      readError := none
      ended := t.ended ++ [(.read, none)] } := by
  unfold readOp
  dsimp only
  rw [if_pos (.inr hall)]
  rfl

theorem readOp_failed (hlt : total + n < t.expectedResponseLength) (ec : ErrorCode) :
    { t with operation := none }.readOp total (some ec) n = { t with
      operation := none
      readTimeoutTimer := t.readTimeoutTimer.cancel.cancel
      readError := some ec
      ended := t.ended ++ [(.read, some ec)]
      cancels := t.cancels ++ [.onReadPartly] ++ [.onReadComplete] } := by
  unfold readOp
  dsimp only
  rw [if_neg (by simp; omega)]
  rfl

theorem writeOp_more (hn : n ≠ 0) (hlt : total + n < t.request.length) :
    { t with operation := none }.writeOp total none n = { t with
      operation := some ⟨.write, total + n,
        .start (min defaultMaxTransferSize (t.request.length - (total + n)))⟩ } := by
  unfold writeOp
  dsimp only
  rw [if_neg (by omega)]
  exact if_neg (by decide)

theorem writeOp_done (hall : total + n = t.request.length) :
    { t with operation := none }.writeOp total none n = { t with
      operation := some ⟨.read, 0, .start t.expectedResponseLength⟩
      writeTimeoutTimer := t.writeTimeoutTimer.cancel
      readTimeoutTimer := t.readTimeoutTimer.asyncWait.cancel.asyncWait
      writeError := none
      readError := none
      ended := t.ended ++ [(.write, none)] } := by
  unfold writeOp
  dsimp only
  rw [if_pos (.inr hall)]
  rfl

theorem writeOp_failed (hlt : total + n < t.request.length) (ec : ErrorCode) :
    { t with operation := none }.writeOp total (some ec) n = { t with
      operation := none
      writeTimeoutTimer := t.writeTimeoutTimer.cancel
      writeError := some ec
      ended := t.ended ++ [(.write, some ec)]
      cancels := t.cancels ++ [.onWriteComplete] } := by
  unfold writeOp
  dsimp only
  rw [if_neg (by simp; omega)]
  rfl

end

/-! ## The steps one by one -/

/-- What a step does when the part under way fits. -/
inductive Steps (t : TcpTransfer) : Action → TcpTransfer → Prop where
  | tick (duration : Nat) : Steps t (.tick duration) { t with now := t.now + duration }
  | arrive {arrival : Arrival} {arrivals : List Arrival} (harrivals : t.arrivals = arrival :: arrivals)
      (htime : arrival.time ≤ t.now) :
      Steps t .arrive { t with arrivals, available := t.available ++ arrival.chunk }
  | send {total maxSize n : Nat} (hop : t.operation = some ⟨.write, total, .pending maxSize⟩)
      (hpos : 0 < n) (hle : n ≤ maxSize) :
      Steps t (.transfer n) { t with
        operation := some ⟨.write, total, .completed none n⟩
        sent := t.sent ++ (t.request.drop total).take n }
  | receive {total maxSize n : Nat} (hop : t.operation = some ⟨.read, total, .pending maxSize⟩)
      (hpos : 0 < n) (hle : n ≤ maxSize) (havailable : n ≤ t.available.length) :
      Steps t (.transfer n) { t with
        operation := some ⟨.read, total, .completed none n⟩
        available := t.available.drop n
        buffer := t.buffer.take total ++ t.available.take n ++ t.buffer.drop (total + n) }
  | fail {direction : Direction} {total maxSize : Nat} (ec : ErrorCode)
      (hop : t.operation = some ⟨direction, total, .pending maxSize⟩) :
      Steps t (.fail ec) { t with operation := some ⟨direction, total, .completed (some ec) 0⟩ }
  | expire {direction : Direction} (hdue : (t.timer direction).Due t.now) :
      Steps t (.expire direction) (t.setTimer direction (t.timer direction).expire)
  | writeMore {total n : Nat} (hop : t.operation = some ⟨.write, total, .completed none n⟩)
      (hn : n ≠ 0) (hlt : total + n < t.request.length) :
      Steps t .complete { t with operation := some ⟨.write, total + n,
        .start (min defaultMaxTransferSize (t.request.length - (total + n)))⟩ }
  | writeDone {total n : Nat} (hop : t.operation = some ⟨.write, total, .completed none n⟩)
      (hall : total + n = t.request.length) :
      Steps t .complete { t with
        operation := some ⟨.read, 0, .start t.expectedResponseLength⟩
        writeTimeoutTimer := t.writeTimeoutTimer.cancel
        readTimeoutTimer := t.readTimeoutTimer.asyncWait.cancel.asyncWait
        writeError := none
        readError := none
        ended := t.ended ++ [(.write, none)] }
  | writeFailed {total n : Nat} {ec : ErrorCode}
      (hop : t.operation = some ⟨.write, total, .completed (some ec) n⟩)
      (hlt : total + n < t.request.length) :
      Steps t .complete { t with
        operation := none
        writeTimeoutTimer := t.writeTimeoutTimer.cancel
        writeError := some ec
        ended := t.ended ++ [(.write, some ec)]
        cancels := t.cancels ++ [.onWriteComplete] }
  | readMore {total n : Nat} (hop : t.operation = some ⟨.read, total, .completed none n⟩)
      (hn : n ≠ 0) (hlt : total + n < t.expectedResponseLength) :
      Steps t .complete { t with
        operation := some ⟨.read, total + n, .start (t.expectedResponseLength - (total + n))⟩
        readTimeoutTimer := t.readTimeoutTimer.cancel.asyncWait
        readError := none }
  | readDone {total n : Nat} (hop : t.operation = some ⟨.read, total, .completed none n⟩)
      (hall : total + n = t.expectedResponseLength) :
      Steps t .complete { t with
        operation := none
        readTimeoutTimer := t.readTimeoutTimer.cancel
        readError := none
        ended := t.ended ++ [(.read, none)] }
  | readFailed {total n : Nat} {ec : ErrorCode}
      (hop : t.operation = some ⟨.read, total, .completed (some ec) n⟩)
      (hlt : total + n < t.expectedResponseLength) :
      Steps t .complete { t with
        operation := none
        readTimeoutTimer := t.readTimeoutTimer.cancel.cancel
        readError := some ec
        ended := t.ended ++ [(.read, some ec)]
        cancels := t.cancels ++ [.onReadPartly] ++ [.onReadComplete] }
  | timeout {direction : Direction} (hqueued : 0 < (t.timer direction).expired) :
      Steps t (.timeout direction) ((t.setTimer direction { t.timer direction with
        expired := (t.timer direction).expired - 1 }).cancelSocket direction.onTimeout)
  | reset {direction : Direction} (hqueued : 0 < (t.timer direction).aborted) :
      Steps t (.reset direction) (t.setTimer direction { t.timer direction with
        aborted := (t.timer direction).aborted - 1 })

theorem steps_of_complete (hfits : t.Fits) (hs : step .complete t = some t') :
    Steps t .complete t' := by
  unfold step at hs
  dsimp only at hs
  split at hs
  · next total ec n hop =>
    obtain ⟨hle, hpart⟩ := hfits _ _ _ hop
    dsimp only [size] at hle hpart
    cases hs
    cases ec with
    | none =>
      obtain ⟨hn, hzero⟩ := hpart
      by_cases hall : total + n = t.request.length
      · rw [writeOp_done hall]
        exact .writeDone hop hall
      · have hlt : total + n < t.request.length := by omega
        rw [writeOp_more (by omega) hlt]
        exact .writeMore hop (by omega) hlt
    | some ec =>
      obtain ⟨rfl, hleft⟩ := hpart
      rw [writeOp_failed (by omega)]
      exact .writeFailed hop (by omega)
  · next total ec n hop =>
    obtain ⟨hle, hpart⟩ := hfits _ _ _ hop
    dsimp only [size] at hle hpart
    cases hs
    cases ec with
    | none =>
      obtain ⟨hn, hzero⟩ := hpart
      by_cases hall : total + n = t.expectedResponseLength
      · rw [readOp_done hall]
        exact .readDone hop hall
      · have hlt : total + n < t.expectedResponseLength := by omega
        rw [readOp_more (by omega) hlt]
        exact .readMore hop (by omega) hlt
    | some ec =>
      obtain ⟨rfl, hleft⟩ := hpart
      rw [readOp_failed (by omega)]
      exact .readFailed hop (by omega)
  · cases hs

theorem steps_of_transfer {n : Nat} (hs : step (.transfer n) t = some t') :
    Steps t (.transfer n) t' := by
  unfold step at hs
  dsimp only at hs
  split at hs
  · next direction total maxSize hop =>
    cases direction with
    | write =>
      simp only [transferSome, Option.ite_none_right_eq_some, Option.some.injEq] at hs
      obtain ⟨⟨hpos, hle⟩, rfl⟩ := hs
      exact .send hop hpos hle
    | read =>
      simp only [transferSome, Option.ite_none_right_eq_some, Option.some.injEq, Nat.le_min] at hs
      obtain ⟨⟨hpos, hle, havailable⟩, rfl⟩ := hs
      exact .receive hop hpos hle havailable
  · cases hs

theorem steps_of_step {action : Action} (hfits : t.Fits) (hs : step action t = some t') :
    Steps t action t' := by
  cases action with
  | tick duration =>
    cases hs
    exact .tick duration
  | arrive =>
    unfold step at hs
    dsimp only at hs
    split at hs
    · cases hs
    · next harrivals =>
      split_ifs at hs with htime
      cases hs
      exact .arrive harrivals htime
  | transfer n => exact steps_of_transfer hs
  | fail ec =>
    unfold step at hs
    dsimp only at hs
    split at hs
    · next hop =>
      cases hs
      exact .fail ec hop
    · cases hs
  | expire direction =>
    simp only [step, Option.ite_none_right_eq_some, Option.some.injEq] at hs
    obtain ⟨hdue, rfl⟩ := hs
    exact .expire hdue
  | complete => exact steps_of_complete hfits hs
  | timeout direction =>
    simp only [step, Option.ite_none_right_eq_some, Option.some.injEq, onTimeout_none] at hs
    obtain ⟨hqueued, rfl⟩ := hs
    exact .timeout hqueued
  | reset direction =>
    simp only [step, Option.ite_none_right_eq_some, Option.some.injEq, onTimeout_aborted] at hs
    obtain ⟨hqueued, rfl⟩ := hs
    exact .reset hqueued

/-- Whatever is queued can run, and what is due can happen. -/
theorem Steps.step {action : Action} (h : Steps t action t') : step action t = some t' := by
  cases h with
  | tick duration => rfl
  | arrive harrivals htime => simp only [TcpTransfer.step, harrivals, if_pos htime]
  | send hop hpos hle =>
    simp only [TcpTransfer.step, hop, transferSome]
    exact if_pos ⟨hpos, hle⟩
  | receive hop hpos hle havailable =>
    simp only [TcpTransfer.step, hop, transferSome]
    exact if_pos ⟨hpos, Nat.le_min.mpr ⟨hle, havailable⟩⟩
  | fail ec hop => simp only [TcpTransfer.step, hop]
  | expire hdue => exact if_pos hdue
  | writeMore hop hn hlt =>
    simp only [TcpTransfer.step, hop]
    rw [writeOp_more hn hlt]
  | writeDone hop hall =>
    simp only [TcpTransfer.step, hop]
    rw [writeOp_done hall]
  | writeFailed hop hlt =>
    simp only [TcpTransfer.step, hop]
    rw [writeOp_failed hlt]
  | readMore hop hn hlt =>
    simp only [TcpTransfer.step, hop]
    rw [readOp_more hn hlt]
  | readDone hop hall =>
    simp only [TcpTransfer.step, hop]
    rw [readOp_done hall]
  | readFailed hop hlt =>
    simp only [TcpTransfer.step, hop]
    rw [readOp_failed hlt]
  | timeout hqueued =>
    simp only [TcpTransfer.step, onTimeout_none]
    exact if_pos hqueued
  | reset hqueued =>
    simp only [TcpTransfer.step, onTimeout_aborted]
    exact if_pos hqueued

/-! ## Parts go on fitting -/

theorem Fits.of_operation (h : t.Fits) (hop : t'.operation = t.operation)
    (hrequest : t'.request = t.request)
    (hlength : t'.expectedResponseLength = t.expectedResponseLength) : t'.Fits := by
  intro direction total part hop'
  have hsize : t'.size direction = t.size direction := by
    cases direction with
    | write => exact congrArg List.length hrequest
    | read => exact hlength
  rw [hsize]
  exact h direction total part (hop.symm.trans hop')

theorem fits_none (h : t.operation = none) : t.Fits := by
  intro direction total part hop
  cases h.symm.trans hop

theorem fits_some {direction : Direction} {total : Nat} {part : Part}
    (hop : t.operation = some ⟨direction, total, part⟩) (hle : total ≤ t.size direction)
    (hpart : part.Fits (t.size direction - total)) : t.Fits := by
  intro direction' total' part' hop'
  cases hop.symm.trans hop'
  exact ⟨hle, hpart⟩

/-- What is pending is something. -/
theorem Fits.pending_pos (h : t.Fits) {direction : Direction} {total maxSize : Nat}
    (hop : t.operation = some ⟨direction, total, .pending maxSize⟩) :
    total + maxSize ≤ t.size direction ∧ 0 < maxSize := by
  obtain ⟨hle, hpos, hmax⟩ := h _ _ _ hop
  omega

theorem Fits.abort (h : t.Fits) {direction : Direction} {total maxSize : Nat}
    (hop : t.operation = some ⟨direction, total, .pending maxSize⟩) (ec : ErrorCode) :
    Fits { t with operation := some ⟨direction, total, .completed (some ec) 0⟩ } := by
  obtain ⟨hmax, hpos⟩ := h.pending_pos hop
  have hlt : total < t.size direction := by omega
  refine fits_some rfl ?_ ⟨rfl, ?_⟩
  · cases direction <;> exact Nat.le_of_lt hlt
  · cases direction <;> exact Nat.sub_pos_of_lt hlt

theorem Fits.setTimer (h : t.Fits) (direction : Direction) (timer : Timer) :
    (t.setTimer direction timer).Fits := by
  cases direction <;> exact h.of_operation rfl rfl rfl

theorem Fits.cancelSocket (h : t.Fits) (caller : Handler) : (t.cancelSocket caller).Fits := by
  have hcancels : Fits { t with cancels := t.cancels ++ [caller] } := h.of_operation rfl rfl rfl
  rcases t.cancelSocket_eq caller with heq | ⟨direction, total, maxSize, hop, heq⟩
  · rw [heq]
    exact hcancels
  · rw [heq]
    exact hcancels.abort hop .operationAborted

theorem Steps.fits {action : Action} (hs : Steps t action t') (h : t.Fits) : t'.Fits := by
  cases hs with
  | tick duration => exact h.of_operation rfl rfl rfl
  | arrive harrivals htime => exact h.of_operation rfl rfl rfl
  | send hop hpos hle =>
    obtain ⟨hmax, _⟩ := h.pending_pos hop
    refine fits_some rfl (h _ _ _ hop).1 ⟨?_, fun hn => absurd hn (Nat.ne_of_gt hpos)⟩
    dsimp only [size] at hmax ⊢
    omega
  | receive hop hpos hle havailable =>
    obtain ⟨hmax, _⟩ := h.pending_pos hop
    refine fits_some rfl (h _ _ _ hop).1 ⟨?_, fun hn => absurd hn (Nat.ne_of_gt hpos)⟩
    dsimp only [size] at hmax ⊢
    omega
  | fail ec hop => exact h.abort hop ec
  | expire hdue => exact h.setTimer _ _
  | writeMore hop hn hlt =>
    refine fits_some rfl (Nat.le_of_lt hlt) (Part.fits_start (Nat.min_le_right _ _) ?_)
    dsimp only [size, defaultMaxTransferSize]
    omega
  | writeDone hop hall => exact fits_some rfl (Nat.zero_le _) (Part.fits_start (Nat.le_refl _) id)
  | writeFailed hop hlt => exact fits_none rfl
  | readMore hop hn hlt =>
    exact fits_some rfl (Nat.le_of_lt hlt) (Part.fits_start (Nat.le_refl _) id)
  | readDone hop hall => exact fits_none rfl
  | readFailed hop hlt => exact fits_none rfl
  | timeout hqueued => exact (h.setTimer _ _).cancelSocket _
  | reset hqueued => exact h.setTimer _ _

theorem fits_prepareTransfer (t : TcpTransfer) (request : Bytes) (length : Nat) :
    (t.prepareTransfer request length).Fits := by
  have hmax : transferAll none = 65536 := rfl
  refine fits_some rfl (Nat.zero_le _) (Part.fits_start (Nat.min_le_right _ _) fun hzero => ?_)
  rw [hmax] at hzero
  show request.length - 0 = 0
  omega

theorem fits_prepareRead (t : TcpTransfer) (length : Nat) : (t.prepareRead length).Fits :=
  fits_some rfl (Nat.zero_le _) (Part.fits_start (Nat.le_refl _) id)

end TcpTransfer

end Bittorrent.Net
